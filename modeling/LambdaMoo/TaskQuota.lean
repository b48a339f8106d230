import LambdaMoo.TaskLogins

/-!
# Exact counts in every run, and the limit on queued tasks

In every run of the operations the counts are exact, unless an extension makes
a task runnable by `resume_task`, which leaves the count as it is, or a task is
queued for nobody while several queues are without a player. Where the counts
are exact and the limit is one that an `int` holds, the limit refuses a task
exactly when it should.
-/

set_option autoImplicit false

namespace LambdaMoo.Tasks

namespace Server

variable {s s' : Server} {q : ℕ}

theorem Left.loggedIn {n : ℤ} (hl : Left q n s s') (h : Counted s)
    (hfree : ∀ x ∈ s.live, (s.queue x).player ≠ n) :
    LoggedIn q n none s {s' with phase := .task q} where
  waiting := hl.waiting
  next := hl.next
  phase _ hp := by cases hp
  player := hl.player
  owned t ht := by
    change t ∈ (s'.queue q).bg at ht
    rw [hl.bg] at ht
    cases ht
  count := by
    show (s'.queue q).numBgTasks = (s'.queue q).bg.length+_
    rw [hl.numBgTasks, hl.bg, h.none_of hfree]
    rfl
  old x hx hxq _ := hl.old x hx hxq
  other x hx _ _ := hfree x hx
  taken _ hd := by cases hd
  quiet hd := absurd rfl hd
  live := hl.live

theorem Left.loggedIn_taken {n : ℤ} {s₂ : Server} {d : ℕ} (hl : Left q n s s₂)
    (ht : Taken q d s₂ s') (h : Counted s) (hq : q ∈ s.live) (hn : n ≠ nobody) (hd : d ∈ s.live)
    (hdq : d ≠ q) (hdn : (s.queue d).player = n) (hno : NoneForNobody s)
    {c : ℕ → TQueue} (hc : c = Function.update s'.queue d {s'.queue d with connected := false}) :
    LoggedIn q n (some d) s {s' with phase := .task q, queue := c} := by
  have hd2 : s₂.queue d = s.queue d := hl.old d hd hdq
  have hcq : c q = s'.queue q := by rw [hc, Function.update_of_ne hdq.symm]
  have hcd : c d = {s'.queue d with connected := false} := by rw [hc, Function.update_self]
  have hcx : ∀ x, x ≠ q → x ≠ d → c x = s₂.queue x := by
    intro x hxq hxd
    rw [hc, Function.update_of_ne hxd, ht.old x hxq hxd]
  have hbg : (c q).bg = (s.queue d).bg := by
    rw [hcq, ht.heir, hl.bg, hd2]
    rfl
  refine ⟨ht.waiting.trans hl.waiting, ht.next.trans hl.next, (fun _ hp => by cases hp), ?_, ?_, ?_,
    ?_, ?_, ?_, fun _ => hno, ?_⟩
  · show (c q).player = n
    rw [hcq, ht.heir]
    exact hl.player
  · intro t htm
    change t ∈ (c q).bg at htm
    rw [hbg] at htm
    exact (h.owned d hd t htm).trans hdn
  · show (c q).numBgTasks = (c q).bg.length+_
    rw [hbg, hcq, ht.heir, hd2, ← hdn]
    exact h.count d hd
  · intro x hx hxq hxd
    have hxd' : x ≠ d := fun he => hxd (he ▸ rfl)
    exact (hcx x hxq hxd').trans (hl.old x hx hxq)
  · intro x hx hxq hxd he
    have hxd' : x ≠ d := fun he => hxd (he ▸ rfl)
    exact hn (he ▸ (h.unique x hx d hd hxd' (he.trans hdn.symm)).1)
  · intro e he
    cases he
    refine ⟨hdn, ?_, ?_, ?_, ?_⟩
    · exact (congrArg TQueue.player hcd).trans (by rw [ht.dead])
    · exact (congrArg TQueue.bg hcd).trans (by rw [ht.dead])
    · exact (congrArg TQueue.numBgTasks hcd).trans (by rw [ht.dead])
    · exact congrArg TQueue.connected hcd
  · rcases hl.live with ⟨he, hz⟩ | ⟨o, ho, he, hp, hb, hnum, hco⟩
    · exact .inl ⟨ht.live.trans he, hz⟩
    · have hox : c o = s₂.queue o := hcx o (fun e => ho (e ▸ hq)) (fun e => ho (e ▸ hd))
      refine .inr ⟨o, ho, ht.live.trans he, ?_, ?_, ?_, ?_⟩
      · exact (congrArg TQueue.player hox).trans hp
      · exact (congrArg TQueue.bg hox).trans hb
      · exact (congrArg TQueue.numBgTasks hox).trans hnum
      · exact (congrArg TQueue.connected hox).trans hco

/-- The state of the main loop aside. -/
theorem SameBooks.at_task (h : SameBooks s s') (q : ℕ) :
    SameBooks {s with phase := .task q} {s' with phase := .task q} :=
  ⟨h.live, h.waiting, h.player, h.bg, h.numBgTasks, h.connected,
    (fun _ hp => by cases hp), h.next⟩

/-- Closing the connection of the queue that was taken over. -/
theorem close_same (hs : Shape s) {d : ℕ}
    (hr : (if (s.queue d).connected then s.freeTaskQueue d else .ok s) = .ok s') :
    SameBooks (s.modify d fun tq => {tq with connected := false}) s' := by
  have hm : Shape (s.modify d fun tq => {tq with connected := false}) :=
    hs.modify d fun _ => by rfl
  split at hr
  · unfold freeTaskQueue at hr
    dsimp only at hr
    split at hr
    · exact (hm.ensureUsage hr).same
    · cases hr
      exact SameBooks.rfl
  · next hc =>
    cases hr
    have hf : (s.queue d).connected = false := by simpa using hc
    rw [modify_eq_self (f := fun tq => {tq with connected := false}) (by rw [← hf])]
    exact SameBooks.rfl

theorem doLogin_counted (h : Counted s) (hs : Shape s) {flush : Option Str} {n : ℕ}
    (hphase : s.phase = .login q) (hc : (s.queue q).connected = true)
    (hquiet : (s.findTqueue n).isSome → NoneForNobody s)
    (hr : s.doLogin flush q n = .ok s') : Counted {s' with phase := .task q} := by
  have hq : q ∈ s.live := hs.phase_live (by rw [hphase]; rfl)
  have hp := h.somebody q hq hc
  have hneg := h.login q hphase
  have hn : (0:ℤ) ≤ n := Int.natCast_nonneg n
  have hnn : (n:ℤ) ≠ nobody := by
    show (n:ℤ) ≠ -1
    omega
  have hl := leaveTasks_left h hs flush hq (n := (n:ℤ)) hp (by omega)
  have hs2 := leaveTasks_shape (hs.modify q (f := fun tq => {tq with player := (n:ℤ)})
    fun _ => by rfl) flush q (s.queue q).player
  unfold doLogin at hr
  dsimp only at hr
  split at hr
  · next hf =>
    cases hr
    exact (hl.loggedIn h (hs.find_none hf)).counted h hq hp hneg hn
  · next d hf =>
    have hfound := hs.find hf
    have hdq : d ≠ q := by
      intro he
      rw [he] at hfound
      omega
    have ht := takeOver_taken (leaveTasks flush q (s.queue q).player
      (s.modify q fun tq => {tq with player := (n:ℤ)})) hdq
    have hlog := hl.loggedIn_taken ht h hq hnn hfound.1 hdq hfound.2
      (hquiet (by rw [hf]; rfl)) rfl
    exact (hlog.counted h hq hp hneg hn).same
      ((close_same (takeOver_shape hs2 q d) hr).at_task q)

/-- No task is made runnable behind the counts, none is queued for nobody while several queues
are without a player, and no queue is taken over while a task for nobody is queued. -/
def Regular (s : Server) : Op → Prop
  | .resumeTask _ _ _ _ => False
  | .enqueue _ _ t => t.progr = nobody → OneNobody s
  | .restore _ t => t.progr = nobody → OneNobody s
  | .login _ (some n) =>
    ∀ q, s.phase = .login q → (s.queue q).connected = true → (s.findTqueue n).isSome →
      NoneForNobody s
  | _ => True

theorem counted_if {c : Prop} [Decidable c] {r : Result Server} (h : Counted s)
    (hk : r = .ok s' → SameBooks s s') (hs : (if c then r else .ok s) = .ok s') : Counted s' := by
  split at hs
  · exact h.same (hk hs)
  · cases hs
    exact h

theorem login_counted (h : Counted s) (hs : Shape s) {flush : Option Str} {user : Option ℕ}
    (ho : Regular s (.login flush user)) (hr : s.login flush user = .ok s') : Counted s' := by
  unfold login at hr
  split at hr
  · next q hp =>
    have hsame : Counted {s with phase := .task q} := h.same (SameBooks.task s q s.currentTaskId)
    split at hr
    · next n =>
      split at hr
      · next hc =>
        obtain ⟨s₁, hl, hr⟩ := bind_ok.mp hr
        cases hr
        exact doLogin_counted h hs hp hc (ho q hp hc) hl
      · cases hr
        exact hsame
    · cases hr
      exact hsame
  · cases hr
    exact h

theorem step_counted (h : Counted s) (hs : Shape s) (op : Op) (ho : Regular s op)
    (hr : s.step op = .ok s') : Counted s' := by
  have hok : ∀ {s₁ : Server}, Counted s₁ → (.ok s₁ : Result Server) = .ok s' → Counted s' := by
    intro s₁ h1 he
    cases he
    exact h1
  cases op with
  | connect flush => exact hok (newConnection_counted h hs flush) hr
  | disconnect q => exact counted_if h (freeTaskQueue_same hs) hr
  | flushCommand q cmd =>
    apply counted_if h _ hr
    intro he
    cases he
    exact setFlushCommand_same q cmd s
  | holdInput q value => exact counted_if h (setHoldInput_same hs) hr
  | disableOob q value => exact counted_if h (setDisableOob_same hs) hr
  | input q line binary => exact counted_if h (newInputTask_same hs) hr
  | forceInput flush conn line atFront => exact forceInput_counted h hs hr
  | flushInput flush conn => exact hok (bfFlushInput_counted h hs flush conn) hr
  | enqueue flush limits t =>
    apply hok _ hr
    unfold enqueueTask
    split
    · exact enqueueWaiting_counted h hs flush ho
    · exact h
  | restore flush t => exact hok (enqueueWaiting_counted h hs flush ho) hr
  | resumeTask flush id progr value => exact ho.elim
  | readNow conn => exact hok (h.same (readInputNow_same conn s)) hr
  | read player id => exact h.same (makeReadingTask_same hs hr)
  | kill id owner wizard => exact hok (killTask_counted h hs id owner wizard) hr
  | resume flush id value progr wizard now =>
    obtain ⟨r, hd, hr⟩ := bind_ok.mp hr
    exact hok (doResume_counted h hs hd) hr
  | wake flush now =>
    simp only [step] at hr
    split at hr
    · exact wake_counted flush now s.waiting h hs rfl hr
    · exact hok h hr
  | dispatch parses newId =>
    simp only [step] at hr
    split at hr
    · exact hok (dispatch_counted h hs parses newId) hr
    · exact hok h hr
  | login flush user => exact login_counted h hs ho hr
  | finish elapsed =>
    simp only [step] at hr
    split at hr
    · exact hok (h.same (finish_same _ elapsed s)) hr
    · exact hok h hr
  | freeSpent =>
    simp only [step] at hr
    split at hr
    · exact hok (freeSpent_counted s.idle h hs hs.idle_nodup fun _ hq => hq) hr
    · exact hok h hr

end Server

def RegularRun : List Op → Server → Prop
  | [], _ => True
  | op::ops, s => s.Regular op ∧ ∀ s', s.step op = .ok s' → RegularRun ops s'

theorem init_counted : init.Counted where
  count q hq := by cases hq
  owned q hq := by cases hq
  home t ht := by cases ht
  unique q hq := by cases hq
  somebody q hq := by cases hq
  login q hq := by cases hq
  next := by decide

theorem run_counted (ops : List Op) {s s' : Server} (h : s.Counted) (hs : s.Shape)
    (ho : RegularRun ops s) (hr : run ops s = .ok s') : s'.Counted ∧ s'.Shape := by
  induction ops generalizing s with
  | nil =>
    cases hr
    exact ⟨h, hs⟩
  | cons op ops ih =>
    obtain ⟨s₁, h1, hr⟩ := bind_ok.mp hr
    exact ih (Server.step_counted h hs op ho.1 h1) (Server.step_shape hs op h1).1 (ho.2 s₁ h1) hr

/-- The limit that applies to a user: its own if that is not negative, or else the server's. -/
def Limits.applicable (l : Limits) : Option ℤ :=
  ((l.property.map BitVec.toInt).filter (0 ≤ ·)).or ((l.option.map BitVec.toInt).filter (0 ≤ ·))

/-- The limits that are looked at are what an `int` holds. -/
structure Limits.Fit (l : Limits) : Prop where
  property : ∀ n ∈ l.property, FitsInt n.toInt
  option : (∀ n ∈ l.property, n.toInt < 0) → ∀ n ∈ l.option, FitsInt n.toInt

/-- All background tasks, ready or waiting. -/
def Server.bgTasks (s : Server) : List Task := (s.live.flatMap fun q => (s.queue q).bg) ++ s.waiting

theorem tasksOf_append (ts us : List Task) (player : ℤ) :
    tasksOf (ts ++ us) player = tasksOf ts player+tasksOf us player := by
  simp [tasksOf, List.countP_append]

theorem tasksOf_eq_zero {ts : List Task} {player : ℤ} (h : ∀ t ∈ ts, t.progr ≠ player) :
    tasksOf ts player = 0 := by
  simpa [tasksOf, List.countP_eq_zero] using h

theorem tasksOf_eq_length {ts : List Task} {player : ℤ} (h : ∀ t ∈ ts, t.progr = player) :
    tasksOf ts player = ts.length := by
  simpa [tasksOf, List.countP_eq_length] using h

theorem tasksOf_flatMap_zero (qs : List ℕ) (f : ℕ → List Task) (player : ℤ)
    (h : ∀ x ∈ qs, tasksOf (f x) player = 0) : tasksOf (qs.flatMap f) player = 0 := by
  induction qs with
  | nil => rfl
  | cons x qs ih =>
    rw [List.flatMap_cons, tasksOf_append, h x (by simp), ih fun y hy => h y (by simp [hy])]

theorem tasksOf_flatMap {qs : List ℕ} (f : ℕ → List Task) {player : ℤ} {q : ℕ} (hn : qs.Nodup)
    (hq : q ∈ qs) (h : ∀ x ∈ qs, x ≠ q → tasksOf (f x) player = 0) :
    tasksOf (qs.flatMap f) player = tasksOf (f q) player := by
  induction qs with
  | nil => cases hq
  | cons x qs ih =>
    rw [List.flatMap_cons, tasksOf_append]
    obtain ⟨hx, hn⟩ := List.nodup_cons.mp hn
    by_cases hxq : x = q
    · subst hxq
      rw [tasksOf_flatMap_zero qs f player fun y hy =>
        h y (by simp [hy]) fun he => hx (he ▸ hy)]
      rfl
    · rw [h x (by simp) hxq, ih hn ((List.mem_cons.mp hq).resolve_left (Ne.symm hxq))
        fun y hy => h y (by simp [hy])]
      exact Nat.zero_add _

theorem filter_fits {o : Option Num} (h : ∀ n ∈ o, FitsInt n.toInt) :
    (o.map BitVec.toInt).filter (0 ≤ ·) =
      if (o.map toInt32).getD (-1) < 0 then none else some ((o.map toInt32).getD (-1)) := by
  cases o with
  | none => rfl
  | some n =>
    have hn := toInt32_eq (h n rfl)
    by_cases hneg : n.toInt < 0
    · simp [hn, hneg, Option.filter]
    · simp [hn, hneg, Option.filter, not_lt.mp hneg]

/-- Where an `int` holds the limits, the code's limit is the one that applies. -/
theorem applicable_eq {l : Limits} (hl : l.Fit) :
    l.applicable = if l.limit < 0 then none else some l.limit := by
  have hown := filter_fits hl.property
  unfold Limits.applicable Limits.limit
  dsimp only
  rw [hown]
  by_cases hneg : (l.property.map toInt32).getD (-1) < 0
  · have hopt := filter_fits (hl.option fun n hn => by
      rw [hn] at hneg
      simpa [toInt32_eq (hl.property n hn)] using hneg)
    rw [if_pos hneg, if_pos hneg, hopt]
    rfl
  · rw [if_neg hneg, if_neg hneg, if_neg hneg]
    rfl

namespace Server

variable {s : Server}

/-- What `check_user_task_limit` compares with the limit is the number of the user's tasks. -/
theorem Counted.num_eq (h : Counted s) (hs : Shape s) (user : ℤ) :
    s.numQueued user = tasksOf s.bgTasks user := by
  have hzero : ∀ x ∈ s.live, (s.queue x).player ≠ user → tasksOf (s.queue x).bg user = 0 := by
    intro x hx hne
    exact tasksOf_eq_zero fun t ht he => hne ((h.owned x hx t ht).symm.trans he)
  unfold bgTasks numQueued
  rw [tasksOf_append]
  split
  · next q hf =>
    obtain ⟨hq, hp⟩ := hs.find hf
    have hother : ∀ x ∈ s.live, x ≠ q → tasksOf (s.queue x).bg user = 0 := by
      intro x hx hxq
      by_cases hxp : (s.queue x).player = user
      · obtain ⟨hn, hno⟩ := h.unique x hx q hq hxq (hxp.trans hp.symm)
        rw [hno.bg x hx hn]
        rfl
      · exact hzero x hx hxp
    rw [tasksOf_flatMap _ hs.single hq hother,
      tasksOf_eq_length fun t ht => (h.owned q hq t ht).trans hp, h.count q hq, hp]
    push_cast
    rfl
  · next hf =>
    have hnone := hs.find_none hf
    rw [h.none_of hnone, tasksOf_flatMap_zero _ _ _ fun x hx => hzero x hx (hnone x hx)]
    rfl

theorem enqueueTask_refused (h : Counted s) (hs : Shape s) (flush : Option Str) {l : Limits}
    (hl : l.Fit) (t : Task) :
    (s.enqueueTask flush l t).1 = .quota ↔
      ∃ n ∈ l.applicable, n ≤ tasksOf s.bgTasks t.progr := by
  have hc : (s.enqueueTask flush l t).1 = .quota ↔ s.checkUserTaskLimit t.progr l = false := by
    unfold enqueueTask
    split
    · simp_all
    · simp_all
  rw [hc, checkUserTaskLimit, h.num_eq hs]
  rw [applicable_eq hl]
  by_cases hneg : l.limit < 0
  · simp [hneg]
  · simp [hneg]

end Server

/-- The counts are exact, none is negative, and a task is refused exactly when the number of
its programmer's tasks has reached the limit that applies. -/
structure Server.Exact (s : Server) : Prop where
  count : ∀ q ∈ s.live, (s.queue q).numBgTasks =
    tasksOf (s.queue q).bg (s.queue q).player+tasksOf s.waiting (s.queue q).player
  own : ∀ q ∈ s.live, ∀ t ∈ (s.queue q).bg, t.progr = (s.queue q).player
  nonneg : ∀ q ∈ s.live, 0 ≤ (s.queue q).numBgTasks
  refused : ∀ (flush : Option Str) (l : Limits) (t : Task), l.Fit →
    ((s.enqueueTask flush l t).1 = .quota ↔ ∃ n ∈ l.applicable, n ≤ tasksOf s.bgTasks t.progr)

/-- Exact counts are `int`s as long as fewer than `2^31` tasks are queued or waiting. -/
theorem Server.Exact.fits {s : Server} (h : s.Exact) {q : ℕ} (hq : q ∈ s.live)
    (hn : (s.queue q).bg.length+s.waiting.length < 2^31) : FitsInt (s.queue q).numBgTasks := by
  have hbg : tasksOf (s.queue q).bg (s.queue q).player ≤ (s.queue q).bg.length :=
    List.countP_le_length
  have hwaiting : tasksOf s.waiting (s.queue q).player ≤ s.waiting.length :=
    List.countP_le_length
  rw [h.count q hq]
  constructor <;> omega

/-- In every run of operations that the counts can follow, every state reached has exact
counts, and limits that an `int` holds refuse exactly what they should. -/
theorem exact_of_regular_run (ops : List Op) (s : Server) (ho : RegularRun ops init)
    (hr : run ops init = .ok s) : s.Exact := by
  obtain ⟨h, hs⟩ := run_counted ops init_counted init_shape ho hr
  refine ⟨?_, h.owned, ?_, ?_⟩
  · intro q hq
    rw [tasksOf_eq_length (h.owned q hq)]
    exact h.count q hq
  · intro q hq
    rw [h.count q hq]
    omega
  · intro flush l t hl
    exact Server.enqueueTask_refused h hs flush hl t

theorem RegularRun.cons {op : Op} {ops : List Op} {s s' : Server} (ho : s.Regular op)
    (hs : s.step op = .ok s') (h : RegularRun ops s') : RegularRun (op::ops) s := by
  refine ⟨ho, fun s₁ h1 => ?_⟩
  cases hs.symm.trans h1
  exact h

theorem timelyLogin_regular : RegularRun timelyLogin init := by
  refine .cons trivial rfl (.cons trivial rfl (.cons trivial rfl (.cons ?_ rfl ?_)))
  · intro h
    exact absurd h (by decide)
  · refine .cons ?_ rfl trivial
    intro q _ _ hf
    exact absurd hf (by decide)

theorem exact_of_regular_run_timely : RegularRun timelyLogin init ∧
    ∃ s, run timelyLogin init = .ok s ∧ s.Exact :=
  ⟨timelyLogin_regular, _, rfl, exact_of_regular_run timelyLogin _ timelyLogin_regular rfl⟩

/-- A task for nobody is queued, and killed after its programmer's number has been given to
the queue of a player who has connected again. -/
def killedForNobody : List Op :=
  [.connect none, .input 0 [] false, .dispatch true 11,
   .enqueue none ⟨none, none⟩ ⟨.forked, 12, -1, 100, zero⟩, .login none (some 3), .finish 0,
   .connect none, .input 2 [] false, .dispatch true 13, .dispatch true 13,
   .login none (some 3), .kill 12 3 true]

/-- Three ways in which the counts or the limit go wrong: `resume_task` queues a task without
counting it, a task for nobody is counted in one queue and taken off another, and a limit of
`2^32` refuses the first task. -/
theorem counts_go_wrong :
    (∃ s, run [.resumeTask none 5 7 zero] init = .ok s ∧ ¬s.Exact) ∧
    (∃ s, run killedForNobody init = .ok s ∧ ¬s.Exact) ∧
    (init.enqueueTask none ⟨some (2^32), none⟩ ⟨.forked, 5, 7, 100, zero⟩).1 = .quota ∧
      (Limits.mk (some (2^32)) none).applicable = some (2^32) ∧ tasksOf init.bgTasks 7 = 0 := by
  refine ⟨⟨_, rfl, fun h => ?_⟩, ⟨_, rfl, fun h => ?_⟩, by decide, by decide, by decide⟩
  · exact absurd (h.count 0 (by decide)) (by decide)
  · exact absurd (h.nonneg 0 (by decide)) (by decide)

end LambdaMoo.Tasks
