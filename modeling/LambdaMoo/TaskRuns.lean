import Mathlib.Data.List.Nodup
import LambdaMoo.TaskPlacement

/-!
# Runs of the task module

Every operation of the task module as one step function. In every run each
queue is on exactly one of the two lists; and unless a connection logs in while
its own queue has background tasks that are ready, a queue with something to
run is on the active list.
-/

set_option autoImplicit false

namespace LambdaMoo.Tasks

/-- What the network, the interpreter and the main loop ask of the task module. `flush` is
the default flush command of a queue that has to be created. -/
inductive Op where
  | connect (flush : Option Str)
  | disconnect (q : ℕ)
  | flushCommand (q : ℕ) (cmd : Str)
  | holdInput (q : ℕ) (value : Bool)
  | disableOob (q : ℕ) (value : Bool)
  | input (q : ℕ) (line : Str) (binary : Bool)
  | forceInput (flush : Option Str) (conn : ℤ) (line : Str) (atFront : Bool)
  | flushInput (flush : Option Str) (conn : ℤ)
  | enqueue (flush : Option Str) (limits : Limits) (t : Task)
  | restore (flush : Option Str) (t : Task)
  | resumeTask (flush : Option Str) (id progr : ℤ) (value : Var)
  | readNow (conn : ℤ)
  | read (player id : ℤ)
  | kill (id owner : ℤ) (wizard : Bool)
  | resume (flush : Option Str) (id : ℤ) (value : Var) (progr : ℤ) (wizard : Bool) (now : ℤ)
  | wake (flush : Option Str) (now : ℤ)
  | dispatch (parses : Bool) (newId : ℤ)
  | login (flush : Option Str) (user : Option ℕ)
  | finish (elapsed : ℤ)
  | freeSpent

namespace Server

/-- The queue of an open connection. -/
def IsOpen (q : ℕ) (s : Server) : Prop := q ∈ s.live ∧ (s.queue q).connected = true

instance (q : ℕ) (s : Server) : Decidable (s.IsOpen q) := by
  unfold IsOpen
  infer_instance

/-- The end of `do_login_task`: `user` is the user that `do_login_command` returned. -/
def login (flush : Option Str) (user : Option ℕ) (s : Server) : Result Server :=
  match s.phase with
  | .login q =>
    match user with
    | some n =>
      if (s.queue q).connected then do
        let s ← s.doLogin flush q n
        .ok {s with phase := .task q}
      else .ok {s with phase := .task q}
    | none => .ok {s with phase := .task q}
  | _ => .ok s

def step (s : Server) : Op → Result Server
  | .connect flush => .ok (s.newConnection flush)
  | .disconnect q => if s.IsOpen q then s.freeTaskQueue q else .ok s
  | .flushCommand q cmd => if s.IsOpen q then .ok (s.setFlushCommand q cmd) else .ok s
  | .holdInput q value => if s.IsOpen q then s.setHoldInput q value else .ok s
  | .disableOob q value => if s.IsOpen q then s.setDisableOob q value else .ok s
  | .input q line binary => if s.IsOpen q then s.newInputTask q line binary else .ok s
  | .forceInput flush conn line atFront => s.forceInput flush conn line atFront
  | .flushInput flush conn => .ok (s.bfFlushInput flush conn)
  | .enqueue flush limits t => .ok (s.enqueueTask flush limits t).2
  | .restore flush t => .ok (s.enqueueWaiting flush t)
  | .resumeTask flush id progr value => s.resumeTask flush id progr value
  | .readNow conn => .ok (s.readInputNow conn)
  | .read player id => s.makeReadingTask player id
  | .kill id owner wizard => .ok (s.killTask id owner wizard).2
  | .resume flush id value progr wizard now => do
    let r ← s.doResume flush id value progr wizard now
    .ok r.2
  | .wake flush now => if s.phase = .rest then s.wake flush now s.waiting else .ok s
  | .dispatch parses newId => if s.phase = .rest then .ok (s.dispatch parses newId) else .ok s
  | .login flush user => s.login flush user
  | .finish elapsed =>
    match s.phase with
    | .task q => .ok (s.finish q elapsed)
    | _ => .ok s
  | .freeSpent => if s.phase = .rest then .ok (s.freeSpent s.idle) else .ok s

end Server

def run : List Op → Server → Result Server
  | [], s => .ok s
  | op::ops, s => do
    let s ← s.step op
    run ops s

namespace Server

variable {s s' : Server}

/-- No connection logs in while its own queue has background tasks that are ready. -/
def Orderly (s : Server) : Op → Prop
  | .login _ (some _) =>
    ∀ q, s.phase = .login q → (s.queue q).connected = true → Bare (s.queue q)
  | _ => True

theorem login_keeps (h : Shape s) {flush : Option Str} {user : Option ℕ}
    (hs : s.login flush user = .ok s') :
    Shape s' ∧ (Orderly s (.login flush user) → Served s → Served s') := by
  unfold login at hs
  split at hs
  · next q hp =>
    have hhead : s.active.head? = some q := h.head q (by rw [hp]; rfl)
    have htask : ∀ p, (Phase.task q).queue = some p → s.active.head? = some p := by
      intro p hq
      cases hq
      exact hhead
    have hk := h.keeps_phase (.task q) s.currentTaskId htask
    split at hs
    · next n =>
      split at hs
      · next hc =>
        obtain ⟨s₁, hl, hs⟩ := bind_ok.mp hs
        cases hs
        have ha : q ∈ s.active := List.mem_of_mem_head? hhead
        have hshape := doLogin_shape h hl
        have hhead₁ : s₁.active.head? = some q :=
          hshape.head q (by rw [doLogin_phase h hl, hp]; rfl)
        have hk₁ := hshape.keeps_phase (.task q) s₁.currentTaskId fun p hq => by
          cases hq
          exact hhead₁
        refine ⟨hk₁.1, fun ho hserved => hk₁.2 ?_⟩
        exact doLogin_served h ((h.live q).mpr (.inr ha)) (fun hi => h.disjoint hi ha)
          (ho q hp hc) hserved hl
      · cases hs
        exact ⟨hk.1, fun _ => hk.2⟩
    · cases hs
      exact ⟨hk.1, fun _ => hk.2⟩
  · cases hs
    exact ⟨h, fun _ => id⟩

/-- An operation on the queue of an open connection. -/
theorem keeps_if {c : Prop} [Decidable c] {r : Result Server} (h : Shape s)
    (hk : r = .ok s' → Keeps s s') (hs : (if c then r else .ok s) = .ok s') : Keeps s s' := by
  split at hs
  · exact hk hs
  · cases hs
    exact Keeps.rfl h

theorem Keeps.of_ok {s₁ : Server} (hk : Keeps s s₁) (hs : (.ok s₁ : Result Server) = .ok s') :
    Keeps s s' := by
  cases hs
  exact hk

theorem step_shape (h : Shape s) (op : Op) (hs : s.step op = .ok s') :
    Shape s' ∧ (Orderly s op → Served s → Served s') := by
  have hkeep : Keeps s s' → Shape s' ∧ (Orderly s op → Served s → Served s') :=
    fun hk => ⟨hk.1, fun _ => hk.2⟩
  cases op with
  | connect flush => exact hkeep ((newConnection_keeps h flush).of_ok hs)
  | disconnect q => exact hkeep (keeps_if h (freeTaskQueue_keeps h) hs)
  | flushCommand q cmd =>
    exact hkeep (keeps_if h (fun hs => (setFlushCommand_keeps h q cmd).of_ok hs) hs)
  | holdInput q value => exact hkeep (keeps_if h (setHoldInput_keeps h) hs)
  | disableOob q value => exact hkeep (keeps_if h (setDisableOob_keeps h) hs)
  | input q line binary => exact hkeep (keeps_if h (newInputTask_keeps h) hs)
  | forceInput flush conn line atFront => exact hkeep (forceInput_keeps h hs)
  | flushInput flush conn => exact hkeep ((bfFlushInput_keeps h flush conn).of_ok hs)
  | enqueue flush limits t => exact hkeep ((enqueueTask_keeps h flush limits t).of_ok hs)
  | restore flush t => exact hkeep ((enqueueWaiting_keeps h flush t).of_ok hs)
  | resumeTask flush id progr value => exact hkeep (resumeTask_keeps h hs)
  | readNow conn => exact hkeep ((readInputNow_keeps h conn).of_ok hs)
  | read player id => exact hkeep (makeReadingTask_keeps h hs)
  | kill id owner wizard => exact hkeep ((killTask_keeps h id owner wizard).of_ok hs)
  | resume flush id value progr wizard now =>
    obtain ⟨r, hr, hs⟩ := bind_ok.mp hs
    exact hkeep ((doResume_keeps h hr).of_ok hs)
  | wake flush now => exact hkeep (keeps_if h (wake_keeps flush now s.waiting h) hs)
  | dispatch parses newId =>
    simp only [step] at hs
    split at hs
    · next hp => exact hkeep ((dispatch_keeps h hp parses newId).of_ok hs)
    · exact hkeep ((Keeps.rfl h).of_ok hs)
  | login flush user => exact login_keeps h hs
  | finish elapsed =>
    simp only [step] at hs
    split at hs
    · next hp => exact hkeep ((finish_keeps h hp elapsed).of_ok hs)
    · exact hkeep ((Keeps.rfl h).of_ok hs)
  | freeSpent =>
    have hk := freeSpent_keeps s.idle h h.idle_nodup fun _ hq => hq
    exact hkeep (keeps_if h (fun hs => hk.of_ok hs) hs)

/-- Each queue is on exactly one of the two lists, and a queue with something to run is on
the active one. -/
structure Placed (s : Server) : Prop where
  once : ∀ q ∈ s.live, (s.idle ++ s.active).count q = 1
  known : ∀ q ∈ s.idle ++ s.active, q ∈ s.live
  active : ∀ q ∈ s.live, Ready (s.queue q) → q ∈ s.active

theorem Shape.placed (h : Shape s) (hs : Served s) : Placed s where
  once q hq := List.count_eq_one_of_mem h.nodup (List.mem_append.mpr ((h.live q).mp hq))
  known q hq := (h.live q).mpr (List.mem_append.mp hq)
  active q hq hr := ((h.live q).mp hq).resolve_left fun hi => hs q hi hr

end Server

/-- Every operation of the run meets the condition in the state that it finds. -/
def OrderlyRun : List Op → Server → Prop
  | [], _ => True
  | op::ops, s => s.Orderly op ∧ ∀ s', s.step op = .ok s' → OrderlyRun ops s'

theorem init_shape : init.Shape where
  nodup := List.nodup_nil
  live q := by simp [init]
  single := List.nodup_nil
  usage q hq := by cases hq
  fresh q hq := by cases hq
  head q hq := by cases hq

theorem run_shape (ops : List Op) {s s' : Server} (h : s.Shape) (hr : run ops s = .ok s') :
    s'.Shape ∧ (OrderlyRun ops s → s.Served → s'.Served) := by
  induction ops generalizing s with
  | nil =>
    cases hr
    exact ⟨h, fun _ => id⟩
  | cons op ops ih =>
    obtain ⟨s₁, hs, hr⟩ := bind_ok.mp hr
    have h1 := Server.step_shape h op hs
    have h2 := ih h1.1 hr
    exact ⟨h2.1, fun ho hserved => h2.2 (ho.2 s₁ hs) (h1.2 ho.1 hserved)⟩

/-- In every run in which no connection logs in while its own queue has background tasks that
are ready, every state reached has each queue on exactly one list and every queue with
something to run on the active one. -/
theorem placed_of_orderly_run (ops : List Op) (s : Server) (ho : OrderlyRun ops init)
    (hr : run ops init = .ok s) : s.Placed := by
  obtain ⟨hshape, hserved⟩ := run_shape ops init_shape hr
  apply hshape.placed
  apply hserved ho
  intro q hq
  cases hq

/-- A line, a login that forks a task for the connection itself and fails, a second line, and
a login that succeeds before the task has run. -/
def strandedTask : List Op :=
  [.connect none, .input 0 [] false, .dispatch true 11,
   .enqueue none ⟨none, none⟩ ⟨.forked, 12, -2, 100, zero⟩, .login none none, .finish 0,
   .input 0 [99, 111] false, .wake none 100, .dispatch true 13, .login none (some 3), .finish 0]

theorem strandedTask_reached : ∃ s, run strandedTask init = .ok s ∧
    s.live = [1, 0] ∧ s.idle = [1] ∧ s.active = [0] ∧ (s.queue 1).bg.length = 1 :=
  ⟨_, rfl, rfl, rfl, rfl, rfl⟩

/-- The task is left in an idle queue. -/
theorem stranded_not_placed : ¬∀ ops s, run ops init = .ok s → s.Placed := by
  intro h
  obtain ⟨s, hr, hl, -, ha, hb⟩ := strandedTask_reached
  have hready : Ready (s.queue 1) := by
    left
    intro he
    simp [he] at hb
  have := (h strandedTask s hr).active 1 (by simp [hl]) hready
  simp [ha] at this

theorem OrderlyRun.cons {op : Op} {ops : List Op} {s s' : Server} (ho : s.Orderly op)
    (hs : s.step op = .ok s') (h : OrderlyRun ops s') : OrderlyRun (op::ops) s := by
  refine ⟨ho, fun s₁ h1 => ?_⟩
  cases hs.symm.trans h1
  exact h

/-- A connection that forks a task and logs in while the task is still waiting. -/
def timelyLogin : List Op :=
  [.connect none, .input 0 [] false, .dispatch true 11,
   .enqueue none ⟨none, none⟩ ⟨.forked, 12, -2, 100, zero⟩, .login none (some 3)]

theorem timelyLogin_orderly : OrderlyRun timelyLogin init := by
  refine .cons trivial rfl (.cons trivial rfl (.cons trivial rfl (.cons trivial rfl ?_)))
  refine .cons ?_ rfl trivial
  intro q hp _
  cases hp
  exact .inr rfl

theorem placed_of_orderly_run_timely : OrderlyRun timelyLogin init ∧
    ∃ s, run timelyLogin init = .ok s ∧ s.Placed :=
  ⟨timelyLogin_orderly, _, rfl, placed_of_orderly_run timelyLogin _ timelyLogin_orderly rfl⟩

end LambdaMoo.Tasks
