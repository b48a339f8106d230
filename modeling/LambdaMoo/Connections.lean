import LambdaMoo.TaskRuns

/-!
# Connections

The server has a handle for each connection, with the player of the connection
and the task queue that its lines go to. The queue knows the player too. When
too much input is queued, the connection is found by the player and suspended.
-/

set_option autoImplicit false

namespace LambdaMoo.Connections
open LambdaMoo.Tasks (Server nobody)

/-- A `shandle`; `suspended` is the `input_suspended` of its network handle. -/
structure Shandle where
  id : ℕ
  player : ℤ
  listener : ℤ
  tasks : ℕ
  connectionTime : ℤ
  disconnectMe : Bool
  outbound : Bool
  binary : Bool
  suspended : Bool

/-- The handles in the order of `all_shandles`, the task module, and the `input_suspended` of the
task queues. -/
structure Conns where
  handles : List Shandle
  fresh : ℕ
  tasks : Server
  suspended : ℕ → Bool

def init : Conns := ⟨[], 0, Tasks.init, fun _ => false⟩

def inputHiwat : ℕ := 65536
def inputLowat : ℕ := inputHiwat/2

/-- `total_input_length`, an `int` in the source. It is the counter of `Input.TQueue`, whose
bound is `Input.totalInputLength_fits`. -/
def totalInputLength (input : List Input.Task) : ℕ := (input.map (·.length)).sum

def noShandle : Fault := .undefined "null shandle"
def notConnected : Fault := .panic "Non-existent shandle connected"

namespace Conns

def findShandle (player : ℤ) (c : Conns) : Option Shandle :=
  c.handles.find? fun h => h.player = player

def modifyShandle (id : ℕ) (f : Shandle → Shandle) (c : Conns) : Conns :=
  { c with handles := c.handles.map fun h => if h.id = id then f h else h }

/-- Neither of the two functions looks whether there is a handle. -/
def serverSetInput (value : Bool) (connection : ℤ) (c : Conns) : Result Conns :=
  match c.findShandle connection with
  | none => .error noShandle
  | some h => .ok (c.modifyShandle h.id fun h => { h with suspended := value })

def serverSuspendInput (connection : ℤ) (c : Conns) : Result Conns :=
  c.serverSetInput true connection

def serverResumeInput (connection : ℤ) (c : Conns) : Result Conns :=
  c.serverSetInput false connection

/-- What `dequeue_input_task` does once a line is taken from a queue. -/
def relieve (q : ℕ) (c : Conns) : Result Conns :=
  let tq := c.tasks.queue q
  if c.suspended q ∧ tq.connected = true ∧ totalInputLength tq.input < inputLowat then do
    let c ← c.serverResumeInput tq.player
    .ok { c with suspended := Function.update c.suspended q false }
  else .ok c

/-- What `enqueue_input_task` does once a line is in a queue. -/
def press (q : ℕ) (c : Conns) : Result Conns :=
  let tq := c.tasks.queue q
  if c.suspended q = false ∧ tq.connected = true ∧ inputHiwat < totalInputLength tq.input then do
    let c ← c.serverSuspendInput tq.player
    .ok { c with suspended := Function.update c.suspended q true }
  else .ok c

def taskSuspendInput (q : ℕ) (c : Conns) : Result Conns :=
  let tq := c.tasks.queue q
  if c.suspended q = false ∧ tq.connected = true then do
    let c ← c.serverSuspendInput tq.player
    .ok { c with suspended := Function.update c.suspended q true }
  else .ok c

/-- The task module after a function that added lines to a queue or took some from it. -/
def settle (q : ℕ) (s : Server) (c : Conns) : Result Conns :=
  let before := if q ∈ c.tasks.live then (c.tasks.queue q).input.length else 0
  let after := (s.queue q).input.length
  let c := { c with tasks := s }
  if after < before then c.relieve q
  else if before < after then c.press q
  else .ok c

def freeShandle (h : Shandle) (c : Conns) : Result Conns := do
  let s ← c.tasks.freeTaskQueue h.tasks
  .ok { c with handles := c.handles.filter (·.id ≠ h.id), tasks := s }

/-- `listening` says whether there is a listener. -/
def serverNewConnection (flush : Option Str) (listener : ℤ) (listening outbound : Bool)
    (c : Conns) : Result Conns :=
  let player := c.tasks.nextUnconnected
  let s := { c.tasks with nextUnconnected := player-1 }
  let q := (s.obtainTqueue flush player).1
  let h : Shandle := ⟨c.fresh, player, listener, q, 0, false, outbound, false, false⟩
  let c := { c with
    handles := h::c.handles
    fresh := c.fresh+1
    tasks := s.newTaskQueue flush player }
  if listening || !outbound then do
    let s ← c.tasks.newInputTask q [] false
    let c ← c.settle q s
    c.taskSuspendInput q
  else .ok c

def serverReceiveLine (h : Shandle) (line : Str) (c : Conns) : Result Conns := do
  let s ← c.tasks.newInputTask h.tasks line h.binary
  c.settle h.tasks s

/-- The main loop looks at a handle: whether its login took too long, and whether its player is
recycled. -/
def reap (h : Shandle) (timedOut recycled : Bool) (c : Conns) : Result Conns :=
  if h.outbound = false ∧ h.connectionTime = 0 ∧ timedOut = true then c.freeShandle h
  else if h.connectionTime ≠ 0 ∧ recycled = true then c.freeShandle h
  else if h.disconnectMe then c.freeShandle h
  else .ok c

def bootPlayer (player : ℤ) (c : Conns) : Conns :=
  match c.findShandle player with
  | none => c
  | some h => c.modifyShandle h.id fun h => { h with disconnectMe := true }

/-- A player gets a connection; one that the player has already is closed. -/
def playerConnected (oldId newId now : ℤ) (c : Conns) : Result Conns :=
  let existing := c.findShandle newId
  match c.findShandle oldId with
  | none => .error notConnected
  | some new =>
    let c := c.modifyShandle new.id fun h => { h with player := newId, connectionTime := now }
    match existing with
    | none => .ok c
    | some h => do
      let c ← c.freeShandle h
      .ok (if h.listener = new.listener then c
        else c.modifyShandle new.id fun h => { h with disconnectMe := false })

/-- `do_login_task` once `do_login_command` has returned `user`. -/
def login (flush : Option Str) (user : Option ℕ) (now : ℤ) (c : Conns) : Result Conns :=
  match c.tasks.phase, user with
  | .login q, some n =>
    if (c.tasks.queue q).connected then do
      let dead := c.tasks.findTqueue n
      let oldPlayer := (c.tasks.queue q).player
      let s := c.tasks.modify q fun tq => { tq with player := n }
      let c := { c with tasks := s.leaveTasks flush q oldPlayer }
      let c ← match dead with
        | none => .ok c
        | some d => do
          let c ← c.settle d (c.tasks.flushInput d)
          .ok { c with tasks := c.tasks.takeOver q d }
      let c ← c.playerConnected oldPlayer n now
      .ok { c with tasks := { c.tasks with phase := .task q } }
    else .ok { c with tasks := { c.tasks with phase := .task q } }
  | .login q, none => .ok { c with tasks := { c.tasks with phase := .task q } }
  | _, _ => .ok c

/-- The options that `set_connection_option` knows, but for those of the network. -/
inductive Setting where
  | binary (value : Bool)
  | flushCommand (cmd : Str)
  | holdInput (value : Bool)
  | disableOob (value : Bool)

def setConnectionOption (conn : ℤ) (o : Setting) (c : Conns) : Result Conns :=
  match c.findShandle conn with
  | none => .ok c
  | some h =>
    if h.disconnectMe then .ok c
    else match o with
    | .binary value => .ok (c.modifyShandle h.id fun h => { h with binary := value })
    | .flushCommand cmd => .ok { c with tasks := c.tasks.setFlushCommand h.tasks cmd }
    | .holdInput value => do
      let s ← c.tasks.setHoldInput h.tasks value
      .ok { c with tasks := s }
    | .disableOob value => do
      let s ← c.tasks.setDisableOob h.tasks value
      .ok { c with tasks := s }

end Conns

/-- What happens to the connections. The operations on tasks that are not for one connection
are those of the task module. -/
inductive Op where
  | connect (flush : Option Str) (listener : ℤ) (listening outbound : Bool)
  | receive (id : ℕ) (line : Str)
  | close (id : ℕ)
  | reap (id : ℕ) (timedOut recycled : Bool)
  | boot (player : ℤ)
  | set (conn : ℤ) (o : Conns.Setting)
  | login (flush : Option Str) (user : Option ℕ) (now : ℤ)
  | task (op : Tasks.Op)

/-- Whether an operation of the task module is for one connection. -/
def forConnection : Tasks.Op → Bool
  | .connect .. => true
  | .disconnect .. => true
  | .flushCommand .. => true
  | .holdInput .. => true
  | .disableOob .. => true
  | .input .. => true
  | .login .. => true
  | _ => false

/-- The queue that gets or loses a line, if there is one, before the operation or after it. -/
def inputQueue (s s' : Server) : Tasks.Op → Option ℕ
  | .forceInput _ conn _ _ => s'.findTqueue conn
  | .flushInput _ conn => s'.findTqueue conn
  | .readNow conn => s'.findTqueue conn
  | .dispatch .. => s.active.head?
  | _ => none

namespace Conns

/-- A handle by its address; an address that is free is never used. -/
def withShandle (id : ℕ) (f : Shandle → Result Conns) (c : Conns) : Result Conns :=
  match c.handles.find? fun h => h.id = id with
  | none => .ok c
  | some h => f h

def step (c : Conns) : Op → Result Conns
  | .connect flush listener listening outbound =>
    c.serverNewConnection flush listener listening outbound
  | .receive id line => c.withShandle id fun h => c.serverReceiveLine h line
  | .close id => c.withShandle id fun h => c.freeShandle h
  | .reap id timedOut recycled => c.withShandle id fun h => c.reap h timedOut recycled
  | .boot player => .ok (c.bootPlayer player)
  | .set conn o => c.setConnectionOption conn o
  | .login flush user now => c.login flush user now
  | .task op =>
    if forConnection op then .ok c
    else do
      let s ← c.tasks.step op
      match inputQueue c.tasks s op with
      | none => .ok { c with tasks := s }
      | some q => c.settle q s

end Conns

def run : List Op → Conns → Result Conns
  | [], c => .ok c
  | op::ops, c => do
    let c ← c.step op
    run ops c

end LambdaMoo.Connections
