import Mathlib.Logic.Function.Basic
import LambdaMoo.Values
import LambdaMoo.InputQueue

/-!
# The task queues

Each player has a task queue with the lines to be read and the background
tasks that are ready to run. The queues are on two lists: `active` holds those
that `run_ready_tasks` looks at, in order of usage, and `idle` the others.
Forked and suspended tasks wait on a list of their own until their time comes.

The input of a queue is the list that the chains of pointers of `InputQueue`
stand for. A queue is known by its address.
-/

set_option autoImplicit false

namespace LambdaMoo.Tasks
open LambdaMoo.Input (How Kind)

inductive BgKind where
  | forked
  | suspended
  deriving DecidableEq, Repr

/-- A forked or suspended task: its programmer is the one of the activation, or of the
verb on top of the suspended stack. -/
structure Task where
  kind : BgKind
  id : ℤ
  progr : ℤ
  startTime : ℤ
  value : Var
  deriving DecidableEq

/-- `reading` holds the id of the task that is blocked on `read()`. `numBgTasks` is an `int` in
the source; `Server.Exact.fits` says when it is one here. -/
structure TQueue where
  player : ℤ
  connected : Bool
  input : List Input.Task
  bg : List Task
  usage : ℤ
  numBgTasks : ℤ
  flushCmd : Option Str
  holdInput : Bool
  disableOob : Bool
  reading : Option ℤ

/-- Where `run_ready_tasks` is: between two tasks, in a task of a queue, or in the
`do_login_command` of a connection. -/
inductive Phase where
  | rest
  | task (q : ℕ)
  | login (q : ℕ)
  deriving DecidableEq, Repr

def Phase.queue : Phase → Option ℕ
  | .rest => none
  | .task q => some q
  | .login q => some q

structure Server where
  queue : ℕ → TQueue
  live : List ℕ
  fresh : ℕ
  idle : List ℕ
  active : List ℕ
  waiting : List Task
  phase : Phase
  currentTaskId : ℤ
  nextUnconnected : ℤ

def noUsage : ℤ := -1
def nobody : ℤ := -1

/-- What `find_tqueue` fills a queue with. -/
def newTQueue (player : ℤ) (flushCmd : Option Str) : TQueue where
  player := player
  connected := false
  input := []
  bg := []
  usage := noUsage
  numBgTasks := 0
  flushCmd := flushCmd
  holdInput := false
  disableOob := false
  reading := none

def init : Server where
  queue := fun _ => newTQueue nobody none
  live := []
  fresh := 0
  idle := []
  active := []
  waiting := []
  phase := .rest
  currentTaskId := 0
  nextUnconnected := nobody-1

namespace Server

def modify (q : ℕ) (f : TQueue → TQueue) (s : Server) : Server :=
  {s with queue := Function.update s.queue q (f (s.queue q))}

def deactivateTqueue (q : ℕ) (s : Server) : Server :=
  let s := s.modify q fun tq => {tq with usage := noUsage}
  {s with idle := q::s.idle}

/-- The queue goes behind all that have been used as little. -/
def activateTqueue (q : ℕ) (s : Server) : Server :=
  let before := fun p => decide ((s.queue p).usage ≤ (s.queue q).usage)
  {s with active := s.active.takeWhile before ++ q::s.active.dropWhile before}

def firstUsage (s : Server) : ℤ :=
  match s.active with
  | [] => 0
  | p::_ => (s.queue p).usage

/-- A queue without usage is taken from the idle list through its `prev`, which is null in
a queue on the active list. -/
def ensureUsage (q : ℕ) (s : Server) : Result Server :=
  if (s.queue q).usage ≠ noUsage then .ok s
  else if q ∈ s.idle then
    let usage := s.firstUsage
    let s := s.modify q fun tq => {tq with usage := usage}
    .ok (activateTqueue q {s with idle := s.idle.erase q})
  else .error (.undefined "null pointer")

def findTqueue (player : ℤ) (s : Server) : Option ℕ :=
  (s.active ++ s.idle).find? fun q => (s.queue q).player = player

/-- `find_tqueue` when it is to create the queue. -/
def obtainTqueue (flush : Option Str) (player : ℤ) (s : Server) : ℕ × Server :=
  match s.findTqueue player with
  | some q => (q, s)
  | none =>
    (s.fresh, {s with
      queue := Function.update s.queue s.fresh (newTQueue player flush)
      live := s.fresh::s.live
      fresh := s.fresh+1
      idle := s.fresh::s.idle})

def freeTqueue (q : ℕ) (s : Server) : Server :=
  {s with idle := s.idle.erase q, live := s.live.erase q}

def enqueueBgTask (q : ℕ) (t : Task) (s : Server) : Server :=
  s.modify q fun tq => {tq with bg := tq.bg ++ [t]}

/-- The count goes down with the task. -/
def dequeueBgTask (q : ℕ) (s : Server) : Option Task × Server :=
  match (s.queue q).bg with
  | [] => (none, s)
  | t::ts => (some t, s.modify q fun tq => {tq with bg := ts, numBgTasks := tq.numBgTasks-1})

end Server

/-- Whether `dequeue_input_task` may hand out a task. -/
def asked (disableOob : Bool) (how : How) (t : Input.Task) : Bool :=
  match how with
  | .first => true
  | .oob => !disableOob && Input.isOob t
  | .inband => disableOob || !Input.isOob t

/-- The list hands out what the chains of pointers hand out. -/
theorem asked_spec (s : Input.Spec) (how : How) :
    (s.step (.dequeue how)).1.queue.map Prod.snd =
      (s.queue.map Prod.snd).eraseP (asked s.disableOob how) ∧
    (s.step (.dequeue how)).2.map Prod.snd =
      ((s.queue.map Prod.snd).find? (asked s.disableOob how)).map (Input.delivered s.disableOob) := by
  have hw : asked s.disableOob how ∘ Prod.snd = Input.wanted s.disableOob how := by
    funext p
    cases how with
    | _ => rfl
  constructor
  · rw [List.eraseP_map, hw]
    rfl
  · rw [List.find?_map, hw]
    simp [Input.Spec.step, Function.comp_def]

namespace Server

def dequeueInputTask (how : How) (q : ℕ) (s : Server) : Option Input.Task × Server :=
  let tq := s.queue q
  match tq.input.find? (asked tq.disableOob how) with
  | none => (none, s)
  | some t =>
    (some (Input.delivered tq.disableOob t),
      s.modify q fun tq => {tq with input := tq.input.eraseP (asked tq.disableOob how)})

def isOutOfInput (q : ℕ) (s : Server) : Bool :=
  !(s.queue q).connected && (s.queue q).input.isEmpty

def newTaskQueue (flush : Option Str) (player : ℤ) (s : Server) : Server :=
  let r := s.obtainTqueue flush player
  r.2.modify r.1 fun tq => {tq with connected := true}

/-- A new connection gets the next of the negative players. -/
def newConnection (flush : Option Str) (s : Server) : Server :=
  newTaskQueue flush s.nextUnconnected {s with nextUnconnected := s.nextUnconnected-1}

def freeTaskQueue (q : ℕ) (s : Server) : Result Server :=
  let s := s.modify q fun tq => {tq with connected := false}
  if (s.queue q).reading.isSome then s.ensureUsage q else .ok s

def setFlushCommand (q : ℕ) (cmd : Str) (s : Server) : Server :=
  s.modify q fun tq => {tq with flushCmd := if cmd = [] then none else some cmd}

def setHoldInput (q : ℕ) (value : Bool) (s : Server) : Result Server :=
  let s := s.modify q fun tq => {tq with holdInput := value}
  if value = false ∧ (s.queue q).input ≠ [] then s.ensureUsage q else .ok s

/-- `first_itail->next`: what stands behind the first run of one class. -/
def secondRun : List Input.Task → List Input.Task
  | [] => []
  | t::ts => ts.dropWhile fun u => Input.isOob u = Input.isOob t

def setDisableOob (q : ℕ) (value : Bool) (s : Server) : Result Server :=
  let s := s.modify q fun tq => {tq with disableOob := value}
  let input := (s.queue q).input
  if value = false ∧ (secondRun input ≠ [] ∨ input.head?.any Input.isOob) then s.ensureUsage q
  else .ok s

def enqueueInputTask (q : ℕ) (line : Str) (atFront binary : Bool) (s : Server) : Result Server :=
  let t := Input.newInputTask line binary
  let s := s.modify q fun tq =>
    {tq with input := if atFront then t::tq.input else tq.input ++ [t]}
  let tq := s.queue q
  if !tq.holdInput || tq.reading.isSome || (!tq.disableOob && Input.isOob t) then s.ensureUsage q
  else .ok s

def flushInput (q : ℕ) (s : Server) : Server := s.modify q fun tq => {tq with input := []}

def newInputTask (q : ℕ) (line : Str) (binary : Bool) (s : Server) : Result Server :=
  if (s.queue q).flushCmd.any fun cmd => mystrcasecmp line cmd = 0 then .ok (s.flushInput q)
  else s.enqueueInputTask q line false binary

/-- Behind every task that starts no later. -/
def insertWaiting (t : Task) (ts : List Task) : List Task :=
  let before := fun u : Task => decide ¬t.startTime < u.startTime
  ts.takeWhile before ++ t::ts.dropWhile before

def enqueueWaiting (flush : Option Str) (t : Task) (s : Server) : Server :=
  let r := s.obtainTqueue flush t.progr
  let s := r.2.modify r.1 fun tq => {tq with numBgTasks := tq.numBgTasks+1}
  {s with waiting := insertWaiting t s.waiting}

end Server

/-- The `queued_task_limit` of a user, where the user is valid and has an integer there,
and the server option of that name, where it is an integer. -/
structure Limits where
  property : Option Num
  option : Option Num

/-- The limit as an `int`; negative where there is none. -/
def Limits.limit (l : Limits) : ℤ :=
  let own := (l.property.map toInt32).getD (-1)
  if own < 0 then (l.option.map toInt32).getD (-1) else own

namespace Server

def numQueued (user : ℤ) (s : Server) : ℤ :=
  match s.findTqueue user with
  | some q => (s.queue q).numBgTasks
  | none => 0

def checkUserTaskLimit (user : ℤ) (limits : Limits) (s : Server) : Bool :=
  if limits.limit < 0 then true else !decide (s.numQueued user ≥ limits.limit)

/-- `enqueue_forked_task2` and `enqueue_suspended_task`, for a task that is to start at
the given time. -/
def enqueueTask (flush : Option Str) (limits : Limits) (t : Task) (s : Server) : Err × Server :=
  if s.checkUserTaskLimit t.progr limits then (.none, s.enqueueWaiting flush t) else (.quota, s)

/-- Unlike every other way to queue a task, this leaves `num_bg_tasks` as it is. -/
def resumeTask (flush : Option Str) (id progr : ℤ) (value : Var) (s : Server) : Result Server :=
  let r := s.obtainTqueue flush progr
  (r.2.enqueueBgTask r.1 ⟨.suspended, id, progr, 0, value⟩).ensureUsage r.1

def readInputNow (connection : ℤ) (s : Server) : Server :=
  match s.findTqueue connection with
  | none => s
  | some q => if s.isOutOfInput q then s else (s.dequeueInputTask .inband q).2

def makeReadingTask (player id : ℤ) (s : Server) : Result Server :=
  match s.findTqueue player with
  | none => .ok s
  | some q =>
    if (s.queue q).reading.isSome ∨ s.isOutOfInput q then .ok s
    else
      let s := s.modify q fun tq => {tq with reading := some id}
      if (s.queue q).input ≠ [] then s.ensureUsage q else .ok s

def forceInput (flush : Option Str) (conn : ℤ) (line : Str) (atFront : Bool) (s : Server) :
    Result Server :=
  let r := s.obtainTqueue flush conn
  r.2.enqueueInputTask r.1 line atFront false

def bfFlushInput (flush : Option Str) (conn : ℤ) (s : Server) : Server :=
  let r := s.obtainTqueue flush conn
  r.2.flushInput r.1

def decrement (tq : TQueue) : TQueue := {tq with numBgTasks := tq.numBgTasks-1}

def killWaiting (t : Task) (s : Server) : Server :=
  let s := {s with waiting := s.waiting.eraseP fun u => u.id = t.id}
  match s.findTqueue t.progr with
  | some q => s.modify q decrement
  | none => s

def killReading (q : ℕ) (s : Server) : Server := s.modify q fun tq => {tq with reading := none}

def killBg (q : ℕ) (id : ℤ) (s : Server) : Server :=
  s.modify q fun tq => decrement {tq with bg := tq.bg.eraseP fun u => u.id = id}

/-- The search of `kill_task` in one queue of the active list. -/
def killActive (q : ℕ) (id owner : ℤ) (wizard : Bool) (s : Server) : Err × Server :=
  if wizard = false ∧ owner ≠ (s.queue q).player then (.perm, s)
  else if (s.queue q).reading = some id then (.none, s.killReading q)
  else (.none, s.killBg q id)

def killTask (id owner : ℤ) (wizard : Bool) (s : Server) : Err × Server :=
  if id = s.currentTaskId then (.none, s)
  else match s.waiting.find? fun t => t.id = id with
  | some t =>
    if wizard = false ∧ owner ≠ t.progr then (.perm, s) else (.none, s.killWaiting t)
  | none =>
    match s.idle.find? fun q => (s.queue q).reading = some id with
    | some q =>
      if wizard = false ∧ owner ≠ (s.queue q).player then (.perm, s) else (.none, s.killReading q)
    | none =>
      match s.active.find? fun q =>
          decide ((s.queue q).reading = some id) || (s.queue q).bg.any fun t => t.id = id with
      | some q => s.killActive q id owner wizard
      | none => (.invarg, s)

def isSuspended (id : ℤ) (t : Task) : Bool := t.kind = .suspended && t.id = id

/-- A waiting task that is resumed is ready at once. -/
def resumeWaiting (flush : Option Str) (t : Task) (value : Var) (now : ℤ) (s : Server) :
    Result Server := do
  let r := s.obtainTqueue flush t.progr
  let s := {r.2 with waiting := r.2.waiting.eraseP (isSuspended t.id)}
  let s ← s.ensureUsage r.1
  .ok (s.enqueueBgTask r.1 {t with startTime := now, value := value})

def replaceValue (id : ℤ) (value : Var) (ts : List Task) : List Task :=
  ts.takeWhile (fun t => !isSuspended id t) ++
    match ts.dropWhile fun t => !isSuspended id t with
    | [] => []
    | t::ts => {t with value := value}::ts

def doResume (flush : Option Str) (id : ℤ) (value : Var) (progr : ℤ) (wizard : Bool) (now : ℤ)
    (s : Server) : Result (Err × Server) :=
  match s.waiting.find? (isSuspended id) with
  | some t =>
    if wizard = false ∧ progr ≠ t.progr then .ok (.perm, s)
    else do
      let s ← s.resumeWaiting flush t value now
      .ok (.none, s)
  | none =>
    match s.active.find? fun q => (s.queue q).bg.any (isSuspended id) with
    | some q =>
      if wizard = false ∧ progr ≠ (s.queue q).player then .ok (.perm, s)
      else .ok (.none, s.modify q fun tq => {tq with bg := replaceValue id value tq.bg})
    | none => .ok (.invarg, s)

/-- The first loop of `run_ready_tasks`, on the tasks that still wait. -/
def wake (flush : Option Str) (now : ℤ) : List Task → Server → Result Server
  | [], s => .ok {s with waiting := []}
  | t::ts, s =>
    if t.startTime ≤ now then do
      let r := s.obtainTqueue flush t.progr
      let s := {r.2 with waiting := ts}
      let s ← s.ensureUsage r.1
      wake flush now ts (s.enqueueBgTask r.1 t)
    else .ok {s with waiting := t::ts}

/-- What is done with a line that was taken from the queue. A command line that does not
parse is done with at once; a line of a connection that is not logged in is for
`do_login_command`. -/
def runInput (q : ℕ) (t : Input.Task) (parses : Bool) (newId : ℤ) (s : Server) : Server :=
  if t.kind = .oob then {s with phase := .task q, currentTaskId := newId}
  else match (s.queue q).reading with
  | some id => {s.killReading q with phase := .task q, currentTaskId := id}
  | none =>
    if (s.queue q).player < 0 then {s with phase := .login q, currentTaskId := newId}
    else if parses then {s with phase := .task q, currentTaskId := newId}
    else s

/-- A step of the loop over the active queues: start a task of the first one, or put the
queue aside. -/
def dispatch (parses : Bool) (newId : ℤ) (s : Server) : Server :=
  match s.active with
  | [] => s
  | q::qs =>
    let tq := s.queue q
    match tq.reading, s.isOutOfInput q with
    | some id, true => {s.killReading q with phase := .task q, currentTaskId := id}
    | _, _ =>
      match s.dequeueInputTask (if tq.holdInput && !tq.reading.isSome then .oob else .first) q with
      | (some t, s) => s.runInput q t parses newId
      | (none, _) =>
        match s.dequeueBgTask q with
        | (some t, s) => {s with phase := .task q, currentTaskId := t.id}
        | (none, _) => ({s with active := qs}).deactivateTqueue q

/-- The end of a task: `active_tqueues` is what follows the queue, wherever that stands. -/
def finish (q : ℕ) (elapsed : ℤ) (s : Server) : Server :=
  let s := {s with active := (s.active.dropWhile (· ≠ q)).drop 1, phase := .rest}
  (s.modify q fun tq => {tq with usage := tq.usage+elapsed}).activateTqueue q

def isSpent (s : Server) (q : ℕ) : Bool :=
  !(s.queue q).connected && (s.queue q).input.isEmpty && (s.queue q).numBgTasks = 0

/-- The loop at the end of `run_ready_tasks` over the idle list. -/
def freeSpent : List ℕ → Server → Server
  | [], s => s
  | q::qs, s => freeSpent qs (if s.isSpent q then s.freeTqueue q else s)

/-- All background tasks of a queue go to another, one by one. -/
def moveBg (source target : ℕ) (s : Server) : Server :=
  let ts := (s.queue source).bg
  let s := s.modify source fun tq =>
    {tq with bg := [], numBgTasks := tq.numBgTasks-ts.length}
  s.modify target fun tq => {tq with bg := tq.bg ++ ts}

/-- The tasks of a connection that logs in stay with its old player number. -/
def leaveTasks (flush : Option Str) (q : ℕ) (oldPlayer : ℤ) (s : Server) : Server :=
  if (s.queue q).numBgTasks ≠ 0 then
    let num := (s.queue q).numBgTasks
    let r := s.obtainTqueue flush oldPlayer
    let s := r.2.modify r.1 fun tq => {tq with numBgTasks := num}
    (s.moveBg q r.1).modify q fun tq => {tq with numBgTasks := 0}
  else s

/-- The tasks of the player's old queue come over to the new one. -/
def takeOver (q dead : ℕ) (s : Server) : Server :=
  let num := (s.queue dead).numBgTasks
  let s := s.modify q fun tq => {tq with numBgTasks := num}
  let s := (s.flushInput dead).moveBg dead q
  s.modify dead fun tq => {tq with player := nobody, numBgTasks := 0}

/-- `do_login_task` once `do_login_command` has returned; `player_connected` then closes the
connection that the player had. -/
def doLogin (flush : Option Str) (q : ℕ) (newPlayer : ℕ) (s : Server) : Result Server :=
  let dead := s.findTqueue newPlayer
  let oldPlayer := (s.queue q).player
  let s := s.modify q fun tq => {tq with player := newPlayer}
  let s := s.leaveTasks flush q oldPlayer
  match dead with
  | none => .ok s
  | some d =>
    let s := s.takeOver q d
    if (s.queue d).connected then s.freeTaskQueue d else .ok s

end Server

end LambdaMoo.Tasks
