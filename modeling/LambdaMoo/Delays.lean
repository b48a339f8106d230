import Mathlib.Data.Multiset.AddSub
import Mathlib.Data.List.InsertIdx
import LambdaMoo.TaskAccounts
import LambdaMoo.TaskRuns

/-!
# Delayed tasks

A delay is a 64-bit integer, but a forked task starts after its low 32 bits
taken without a sign, and a suspended one after these bits taken as an `int`.
The tasks that wait are in the order of their start times, and those with the
same start time in the order in which they came.
-/

set_option autoImplicit false

namespace LambdaMoo.Tasks

def int32Max : ℤ := 2^31-1

/-- A value converted to an `int`. -/
def intOf (z : ℤ) : ℤ := (BitVec.ofInt 32 z).toInt

/-- A sum of two values of type `int`: `wraps` says whether an overflow wraps around, as a compiler
may be told to do; C leaves it open. -/
def intAdd (wraps : Bool) (a b : ℤ) : Result ℤ :=
  if -2^31 ≤ a+b ∧ a+b ≤ int32Max then .ok (a+b)
  else if wraps then .ok (intOf (a+b)) else .error (.undefined "signed overflow")

namespace Server

section Delay
variable (flush : Option Str) (limits : Limits) (now : ℤ) (t : Task) (s : Server)

/-- `OP_FORK`; `enqueue_forked_task2` takes the seconds as an `unsigned`. -/
def fork (time : Var) : Err×Server :=
  match time with
  | .int num =>
    if num.toInt < 0 then (.invarg, s)
    else s.enqueueTask flush limits {t with startTime := now+(num.truncate 32).toNat}
  | _ => (.type, s)

def enqueueSuspendedTask (wraps : Bool) (afterSeconds : ℤ) : Result (Err×Server) :=
  let now := intOf now
  if s.checkUserTaskLimit t.progr limits then do
    let when_ ← if (← intAdd wraps now afterSeconds) < now then pure int32Max
      else intAdd wraps now afterSeconds
    return (.none, s.enqueueWaiting flush {t with startTime := when_})
  else return (.quota, s)

def bfSuspend (wraps : Bool) (arg : Option Num) : Result (Err×Server) :=
  let seconds := (arg.map toInt32).getD (-1)
  if arg.isSome ∧ seconds < 0 then .ok (.invarg, s)
  else s.enqueueSuspendedTask flush limits now t wraps seconds

/-- A start time that is not early: the time when the delay is over, or later, or the time that
stands for never where that is too late for an `int`. -/
def OnTime (d start : ℤ) : Prop := now+d ≤ start ∨ start = int32Max ∧ int32Max < now+d

/-- What a delay is to lead to. -/
structure Delays (d : ℤ) (r : Result (Err×Server)) : Prop where
  refused : (∃ s', r = .ok (.invarg, s')) ↔ d < 0
  queued : 0 ≤ d → s.checkUserTaskLimit t.progr limits = true → ∃ start, OnTime now d start ∧
    r = .ok (.none, s.enqueueWaiting flush {t with startTime := start})

end Delay

/-- A queued task is known from the waiting list. -/
theorem enqueueWaiting_inj {flush : Option Str} {t : Task} {s : Server} {a b : ℤ}
    (h : s.enqueueWaiting flush {t with startTime := a} =
      s.enqueueWaiting flush {t with startTime := b}) : a = b := by
  have hw := congrArg Server.waiting h
  have hp : ({t with startTime := a}::(s.obtainTqueue flush t.progr).2.waiting).Perm
      ({t with startTime := b}::(s.obtainTqueue flush t.progr).2.waiting) :=
    (insertWaiting_perm _ _).symm.trans ((List.Perm.of_eq hw).trans (insertWaiting_perm _ _))
  have hm := Multiset.coe_eq_coe.mpr hp
  rw [← Multiset.cons_coe, ← Multiset.cons_coe, Multiset.cons_inj_left] at hm
  exact congrArg Task.startTime hm

theorem toInt_nonneg {d : Num} (h : 0 ≤ d.toInt) : d.toInt = d.toNat := by
  rw [BitVec.toInt_eq_toNat_cond] at h ⊢
  split
  · rfl
  · next hlt =>
    rw [if_neg hlt] at h
    have := d.isLt
    omega

/-- The low 32 bits of a delay without their sign. -/
theorem low_toNat {d : Num} (h : 0 ≤ d.toInt) : ((d.truncate 32).toNat : ℤ) = d.toInt % 2^32 := by
  rw [toInt_nonneg h, BitVec.truncate, BitVec.toNat_setWidth]
  norm_num

section Fork
variable {flush : Option Str} {limits : Limits} {now : ℤ} {t : Task} {s : Server}

/-- A forked task is not early if its delay fits 32 bits. -/
theorem fork_iff (d : Num) :
    Delays flush limits now t s d.toInt (.ok (s.fork flush limits now t (.int d))) ↔
      (0 ≤ d.toInt → s.checkUserTaskLimit t.progr limits = true →
        d.toInt < 2^32 ∨ now+d.toInt % 2^32 = int32Max) := by
  by_cases hneg : d.toInt < 0
  · have hf : s.fork flush limits now t (.int d) = (.invarg, s) := if_pos hneg
    rw [hf]
    refine iff_of_true ⟨iff_of_true ⟨s, rfl⟩ hneg, fun h => ?_⟩ fun h => ?_
    · exact absurd hneg (not_lt.mpr h)
    · exact absurd hneg (not_lt.mpr h)
  · have h0 : 0 ≤ d.toInt := not_lt.mp hneg
    have hf : s.fork flush limits now t (.int d) =
        s.enqueueTask flush limits {t with startTime := now+d.toInt % 2^32} := by
      rw [← low_toNat h0]
      exact if_neg hneg
    rw [hf, enqueueTask]
    by_cases hc : s.checkUserTaskLimit t.progr limits = true
    · rw [if_pos hc]
      constructor
      · intro h _ _
        obtain ⟨start, hon, heq⟩ := h.queued h0 hc
        have hs := enqueueWaiting_inj (Prod.mk.inj (Except.ok.inj heq)).2
        rw [← hs] at hon
        rcases hon with hle | ⟨hmax, -⟩
        · exact .inl (by omega)
        · exact .inr hmax
      · intro h
        refine ⟨iff_of_false ?_ hneg, fun _ _ => ⟨_, ?_, rfl⟩⟩
        · rintro ⟨s', hs'⟩
          cases (Prod.mk.inj (Except.ok.inj hs')).1
        · rcases h h0 hc with hlt | hmax
          · exact .inl (by omega)
          · rw [OnTime]
            omega
    · rw [if_neg hc]
      refine iff_of_true ⟨iff_of_false ?_ hneg, fun _ hc' => absurd hc' hc⟩ fun _ hc' => absurd hc' hc
      rintro ⟨s', hs'⟩
      cases (Prod.mk.inj (Except.ok.inj hs')).1

theorem toInt32_bounds (d : Num) : -2^31 ≤ toInt32 d ∧ toInt32 d ≤ int32Max := by
  obtain ⟨h1, h2⟩ := toInt32_fits d
  rw [int32Max]
  omega

theorem intOf_fits (z : ℤ) : -2^31 ≤ intOf z ∧ intOf z ≤ int32Max := by
  have := BitVec.le_toInt (BitVec.ofInt 32 z)
  have := BitVec.toInt_lt (x := BitVec.ofInt 32 z)
  rw [intOf, int32Max]
  omega

theorem intOf_above {z : ℤ} (h : int32Max < z) (h2 : z ≤ int32Max+int32Max) :
    intOf z = z-2^32 := by
  rw [int32Max] at h h2
  rw [intOf, BitVec.toInt_ofInt, Int.bmod]
  norm_num at h h2 ⊢
  omega

/-- What `enqueue_suspended_task` makes of a delay that is not negative. -/
theorem enqueueSuspendedTask_eq (wraps : Bool) {seconds : ℤ} (h0 : 0 ≤ seconds)
    (hs : seconds ≤ int32Max) (hc : s.checkUserTaskLimit t.progr limits = true) :
    s.enqueueSuspendedTask flush limits now t wraps seconds =
      if intOf now+seconds ≤ int32Max ∨ wraps = true then
        .ok (.none, s.enqueueWaiting flush {t with startTime := min (intOf now+seconds) int32Max})
      else .error (.undefined "signed overflow") := by
  obtain ⟨hlo, hhi⟩ := intOf_fits now
  rw [enqueueSuspendedTask, if_pos hc]
  by_cases hfit : intOf now+seconds ≤ int32Max
  · have hadd : intAdd wraps (intOf now) seconds = .ok (intOf now+seconds) :=
      if_pos ⟨by omega, hfit⟩
    rw [if_pos (.inl hfit), hadd, min_eq_left hfit]
    simp only [bind, Except.bind, if_neg (show ¬intOf now+seconds < intOf now by omega)]
    rfl
  · have hnot : ¬(-2^31 ≤ intOf now+seconds ∧ intOf now+seconds ≤ int32Max) := fun h => hfit h.2
    cases wraps with
    | false =>
      rw [if_neg (by simp [hfit]), intAdd, if_neg hnot]
      rfl
    | true =>
      have hadd : intAdd true (intOf now) seconds = .ok (intOf now+seconds-2^32) := by
        rw [intAdd, if_neg hnot, if_pos rfl, intOf_above (by omega) (by omega)]
      have hlt : intOf now+seconds-2^32 < intOf now := by
        rw [int32Max] at hs
        omega
      rw [if_pos (.inr rfl), hadd, min_eq_right (by omega)]
      simp only [bind, Except.bind, if_pos hlt]
      rfl

/-- A suspended task is not early if the delay keeps its sign as an `int`, and if the sum with the
time is no earlier than the delay says, or is the last time there is, without an overflow that does
not wrap around. -/
theorem bfSuspend_iff (wraps : Bool) (d : Num) :
    Delays flush limits now t s d.toInt (s.bfSuspend flush limits now t wraps (some d)) ↔
      (toInt32 d < 0 ↔ d.toInt < 0) ∧ (0 ≤ d.toInt → s.checkUserTaskLimit t.progr limits = true →
        (intOf now+toInt32 d ≤ int32Max ∨ wraps = true) ∧
        (now+d.toInt ≤ intOf now+toInt32 d ∨ int32Max ≤ intOf now+toInt32 d)) := by
  obtain ⟨hlo, hhi⟩ := toInt32_bounds d
  by_cases hneg : toInt32 d < 0
  · have hf : s.bfSuspend flush limits now t wraps (some d) = .ok (.invarg, s) :=
      if_pos ⟨rfl, hneg⟩
    rw [hf]
    constructor
    · intro h
      have hd := h.refused.mp ⟨s, rfl⟩
      exact ⟨iff_of_true hneg hd, fun h0 => absurd hd (not_lt.mpr h0)⟩
    · rintro ⟨hsign, -⟩
      have hd := hsign.mp hneg
      exact ⟨iff_of_true ⟨s, rfl⟩ hd, fun h0 => absurd hd (not_lt.mpr h0)⟩
  · have hf : s.bfSuspend flush limits now t wraps (some d) =
        s.enqueueSuspendedTask flush limits now t wraps (toInt32 d) :=
      if_neg fun h => hneg h.2
    rw [hf]
    by_cases hc : s.checkUserTaskLimit t.progr limits = true
    · rw [enqueueSuspendedTask_eq wraps (not_lt.mp hneg) hhi hc]
      by_cases hfit : intOf now+toInt32 d ≤ int32Max ∨ wraps = true
      · rw [if_pos hfit]
        have hno : ¬∃ s', (Except.ok (Err.none, s.enqueueWaiting flush
            {t with startTime := min (intOf now+toInt32 d) int32Max}) : Result (Err×Server)) =
              .ok (.invarg, s') := by
          rintro ⟨s', hs'⟩
          cases (Prod.mk.inj (Except.ok.inj hs')).1
        constructor
        · intro h
          have hd : ¬d.toInt < 0 := fun hd => hno (h.refused.mpr hd)
          refine ⟨iff_of_false hneg hd, fun h0 _ => ⟨hfit, ?_⟩⟩
          obtain ⟨start, hon, heq⟩ := h.queued h0 hc
          have hs := enqueueWaiting_inj (Prod.mk.inj (Except.ok.inj heq)).2
          rw [← hs, OnTime] at hon
          omega
        · rintro ⟨hsign, hsum⟩
          have hd : ¬d.toInt < 0 := mt hsign.mpr hneg
          refine ⟨iff_of_false hno hd, fun h0 _ => ⟨_, ?_, rfl⟩⟩
          have := (hsum h0 hc).2
          rw [OnTime]
          omega
      · rw [if_neg hfit]
        constructor
        · intro h
          by_cases hd : d.toInt < 0
          · obtain ⟨s', hs'⟩ := h.refused.mpr hd
            cases hs'
          · obtain ⟨start, -, heq⟩ := h.queued (not_lt.mp hd) hc
            cases heq
        · rintro ⟨hsign, hsum⟩
          exact absurd (hsum (not_lt.mp (mt hsign.mpr hneg)) hc).1 hfit
    · have he : s.enqueueSuspendedTask flush limits now t wraps (toInt32 d) = .ok (.quota, s) :=
        if_neg hc
      rw [he]
      have hno : ¬∃ s', (Except.ok (Err.quota, s) : Result (Err×Server)) = .ok (.invarg, s') := by
        rintro ⟨s', hs'⟩
        cases (Prod.mk.inj (Except.ok.inj hs')).1
      constructor
      · intro h
        have hd : ¬d.toInt < 0 := fun hd => hno (h.refused.mpr hd)
        exact ⟨iff_of_false hneg hd, fun _ hc' => absurd hc' hc⟩
      · rintro ⟨hsign, -⟩
        exact ⟨iff_of_false hno (mt hsign.mpr hneg), fun _ hc' => absurd hc' hc⟩

end Fork

/-- What is done to the list of waiting tasks. -/
inductive WaitOp where
  | enqueue (t : Task)
  | remove (i : ℕ)

def waitStep (ts : List Task) : WaitOp → List Task
  | .enqueue t => insertWaiting t ts
  | .remove i => ts.eraseIdx i

def waitRun (ops : List WaitOp) : List Task := ops.foldl waitStep []

/-- The order of the waiting tasks, each with the number of the operation that queued it. -/
def Before (a b : ℕ×Task) : Prop :=
  a.2.startTime < b.2.startTime ∨ a.2.startTime = b.2.startTime ∧ a.1 < b.1

structure Queued (ops : List WaitOp) (xs : List (ℕ×Task)) : Prop where
  tasks : xs.map Prod.snd = waitRun ops
  ordered : xs.Pairwise Before
  arrived : ∀ x ∈ xs, ops[x.1]? = some (.enqueue x.2)

theorem Before.le {a b : ℕ×Task} (h : Before a b) : a.2.startTime ≤ b.2.startTime := by
  rcases h with h | h
  · exact h.le
  · exact h.1.le

/-- In a list in order, what starts after a time comes after what does not. -/
theorem start_of_dropWhile {xs : List (ℕ×Task)} (h : xs.Pairwise Before) (start : ℤ) :
    ∀ x ∈ xs.dropWhile fun x => decide ¬start < x.2.startTime, start < x.2.startTime := by
  induction xs with
  | nil => exact List.forall_mem_nil _
  | cons x xs ih =>
    obtain ⟨hx, hxs⟩ := List.pairwise_cons.mp h
    by_cases hlt : start < x.2.startTime
    · rw [List.dropWhile_cons_of_neg (by simpa using hlt)]
      intro y hy
      rcases List.mem_cons.mp hy with rfl | hy
      · exact hlt
      · exact lt_of_lt_of_le hlt (hx y hy).le
    · rw [List.dropWhile_cons_of_pos (by simpa using hlt)]
      exact ih hxs

theorem Queued.enqueue {ops : List WaitOp} {xs : List (ℕ×Task)} (h : Queued ops xs) (t : Task) :
    ∃ ys, Queued (ops ++ [.enqueue t]) ys := by
  let early := fun x : ℕ×Task => decide ¬t.startTime < x.2.startTime
  have hlt : ∀ x ∈ xs, x.1 < ops.length := by
    intro x hx
    exact (List.getElem?_eq_some_iff.mp (h.arrived x hx)).1
  have hearly : ∀ x ∈ xs.takeWhile early, x.2.startTime ≤ t.startTime := by
    intro x hx
    have hp : early x = true := List.mem_takeWhile_imp hx
    exact not_lt.mp (of_decide_eq_true hp)
  have hlate := start_of_dropWhile h.ordered t.startTime
  refine ⟨xs.takeWhile early ++ (ops.length, t)::xs.dropWhile early, ?_, ?_, ?_⟩
  · rw [waitRun, List.foldl_append, ← waitRun, ← h.tasks, List.map_append, List.map_cons]
    change _ = insertWaiting t (xs.map Prod.snd)
    rw [insertWaiting, List.takeWhile_map, List.dropWhile_map]
    rfl
  · have hsplit := h.ordered
    rw [← List.takeWhile_append_dropWhile (p := early) (l := xs), List.pairwise_append] at hsplit
    obtain ⟨hl, hr, hlr⟩ := hsplit
    refine List.pairwise_append.mpr ⟨hl, List.pairwise_cons.mpr ⟨?_, hr⟩, ?_⟩
    · exact fun x hx => .inl (hlate x hx)
    · intro x hx y hy
      rcases List.mem_cons.mp hy with rfl | hy
      · rcases lt_or_eq_of_le (hearly x hx) with hlt' | heq
        · exact .inl hlt'
        · exact .inr ⟨heq, hlt x ((List.takeWhile_sublist _).subset hx)⟩
      · exact hlr x hx y hy
  · intro x hx
    have hold : ∀ x ∈ xs, (ops ++ [WaitOp.enqueue t])[x.1]? = some (.enqueue x.2) := by
      intro x hx
      rw [List.getElem?_append_left (hlt x hx)]
      exact h.arrived x hx
    rcases List.mem_append.mp hx with hx | hx
    · exact hold x ((List.takeWhile_sublist _).subset hx)
    · rcases List.mem_cons.mp hx with rfl | hx
      · rw [List.getElem?_append_right le_rfl, Nat.sub_self]
        rfl
      · exact hold x ((List.dropWhile_sublist _).subset hx)

theorem Queued.remove {ops : List WaitOp} {xs : List (ℕ×Task)} (h : Queued ops xs) (i : ℕ) :
    Queued (ops ++ [.remove i]) (xs.eraseIdx i) := by
  have hsub := List.eraseIdx_sublist xs i
  refine ⟨?_, h.ordered.sublist hsub, fun x hx => ?_⟩
  · rw [waitRun, List.foldl_append, ← waitRun, ← h.tasks]
    exact (List.eraseIdx_map Prod.snd xs i).symm
  · have hx := h.arrived x (hsub.subset hx)
    rw [List.getElem?_append_left (List.getElem?_eq_some_iff.mp hx).1]
    exact hx

/-- After any insertions and removals the waiting tasks are in order. -/
theorem waitRun_queued (ops : List WaitOp) : ∃ xs, Queued ops xs := by
  induction ops using List.reverseRecOn with
  | nil => exact ⟨[], rfl, .nil, List.forall_mem_nil _⟩
  | append_singleton ops op ih =>
    obtain ⟨xs, h⟩ := ih
    cases op with
    | enqueue t => exact h.enqueue t
    | remove i => exact ⟨_, h.remove i⟩

/-- One list of waiting tasks comes from another by insertions and removals. -/
def Waits (ts ts' : List Task) : Prop := ∃ ops : List WaitOp, ts' = ops.foldl waitStep ts

namespace Waits
variable {ts ts' ts'' : List Task}

theorem refl (ts : List Task) : Waits ts ts := ⟨[], rfl⟩

theorem ofEq (h : ts' = ts) : Waits ts ts' := h ▸ refl ts

theorem trans (h : Waits ts ts') (h' : Waits ts' ts'') : Waits ts ts'' := by
  obtain ⟨ops, rfl⟩ := h
  obtain ⟨ops', rfl⟩ := h'
  exact ⟨ops ++ ops', (List.foldl_append ..).symm⟩

theorem enqueue (t : Task) (ts : List Task) : Waits ts (insertWaiting t ts) := ⟨[.enqueue t], rfl⟩

theorem tail (t : Task) (ts : List Task) : Waits (t::ts) ts := ⟨[.remove 0], rfl⟩

theorem eraseP (p : Task → Bool) (ts : List Task) : Waits ts (ts.eraseP p) := by
  rw [List.eraseP_eq_eraseIdx]
  cases ts.findIdx? p with
  | none => exact refl ts
  | some i => exact ⟨[.remove i], rfl⟩

end Waits

section Frames
variable {s s' : Server}

@[simp] theorem obtainTqueue_waiting (flush : Option Str) (player : ℤ) (s : Server) :
    (s.obtainTqueue flush player).2.waiting = s.waiting := by
  rw [obtainTqueue]
  split
  · rfl
  · rfl

theorem ensureUsage_waiting {q : ℕ} (h : s.ensureUsage q = .ok s') : s'.waiting = s.waiting := by
  rw [Server.ensureUsage] at h
  split at h
  · cases h
    rfl
  · split at h
    · cases h
      rfl
    · cases h

/-- A change that leaves the list alone, and then perhaps `ensure_usage`. -/
theorem ensured_waiting {q : ℕ} {c : Prop} [Decidable c] {a : Server} (ha : a.waiting = s.waiting)
    (h : (if c then a.ensureUsage q else .ok a) = .ok s') : s'.waiting = s.waiting := by
  split at h
  · exact (ensureUsage_waiting h).trans ha
  · exact Except.ok.inj h ▸ ha

theorem freeTaskQueue_waiting {q : ℕ} (h : s.freeTaskQueue q = .ok s') :
    s'.waiting = s.waiting :=
  ensured_waiting (a := s.modify q fun tq => {tq with connected := false}) rfl h

theorem setHoldInput_waiting {q : ℕ} {value : Bool} (h : s.setHoldInput q value = .ok s') :
    s'.waiting = s.waiting :=
  ensured_waiting (a := s.modify q fun tq => {tq with holdInput := value}) rfl h

theorem setDisableOob_waiting {q : ℕ} {value : Bool} (h : s.setDisableOob q value = .ok s') :
    s'.waiting = s.waiting :=
  ensured_waiting (a := s.modify q fun tq => {tq with disableOob := value}) rfl h

theorem enqueueInputTask_waiting {q : ℕ} {line : Str} {atFront binary : Bool}
    (h : s.enqueueInputTask q line atFront binary = .ok s') : s'.waiting = s.waiting := by
  let t := Input.newInputTask line binary
  let f : TQueue → TQueue := fun tq =>
    {tq with input := if atFront then t::tq.input else tq.input ++ [t]}
  exact ensured_waiting (a := s.modify q f) rfl h

theorem newInputTask_waiting {q : ℕ} {line : Str} {binary : Bool}
    (h : s.newInputTask q line binary = .ok s') : s'.waiting = s.waiting := by
  unfold Server.newInputTask at h
  split at h
  · cases h
    rfl
  · exact enqueueInputTask_waiting h

theorem newConnection_waiting (flush : Option Str) (s : Server) :
    (s.newConnection flush).waiting = s.waiting := by
  rw [newConnection, newTaskQueue, modify_waiting, obtainTqueue_waiting]

theorem bfFlushInput_waiting (flush : Option Str) (conn : ℤ) (s : Server) :
    (s.bfFlushInput flush conn).waiting = s.waiting := by
  rw [bfFlushInput, flushInput, modify_waiting, obtainTqueue_waiting]

theorem resumeTask_waiting {flush : Option Str} {id progr : ℤ} {value : Var}
    (h : s.resumeTask flush id progr value = .ok s') : s'.waiting = s.waiting := by
  unfold Server.resumeTask at h
  exact (ensureUsage_waiting h).trans (obtainTqueue_waiting flush progr s)

@[simp] theorem dequeueInputTask_waiting (how : Input.How) (q : ℕ) (s : Server) :
    (s.dequeueInputTask how q).2.waiting = s.waiting := by
  unfold dequeueInputTask
  dsimp only
  split
  · rfl
  · rfl

@[simp] theorem dequeueBgTask_waiting (q : ℕ) (s : Server) :
    (s.dequeueBgTask q).2.waiting = s.waiting := by
  unfold dequeueBgTask
  split
  · rfl
  · rfl

theorem readInputNow_waiting (connection : ℤ) (s : Server) :
    (s.readInputNow connection).waiting = s.waiting := by
  unfold readInputNow
  split
  · rfl
  · split
    · rfl
    · exact dequeueInputTask_waiting _ _ s

theorem makeReadingTask_waiting {player id : ℤ} (h : s.makeReadingTask player id = .ok s') :
    s'.waiting = s.waiting := by
  unfold makeReadingTask at h
  split at h
  · cases h
    rfl
  · next q _ =>
    split at h
    · cases h
      rfl
    · exact ensured_waiting (a := s.modify q fun tq => {tq with reading := some id}) rfl h

theorem killTask_waits (id owner : ℤ) (wizard : Bool) (s : Server) :
    Waits s.waiting (s.killTask id owner wizard).2.waiting := by
  unfold killTask
  split
  · exact .refl _
  · split
    · next t _ =>
      split
      · exact .refl _
      · dsimp only [killWaiting]
        split
        · exact .eraseP _ _
        · exact .eraseP _ _
    · split
      · split
        · exact .refl _
        · exact .refl _
      · split
        · unfold killActive
          split
          · exact .refl _
          · split
            · exact .refl _
            · exact .refl _
        · exact .refl _

theorem doResume_waits {flush : Option Str} {id progr now : ℤ} {value : Var} {wizard : Bool}
    {r : Err×Server} (h : s.doResume flush id value progr wizard now = .ok r) :
    Waits s.waiting r.2.waiting := by
  unfold doResume at h
  split at h
  · next t _ =>
    split at h
    · cases h
      exact .refl _
    · obtain ⟨s1, hs, h⟩ := bind_ok.mp h
      cases h
      unfold resumeWaiting at hs
      obtain ⟨s2, hs2, hs⟩ := bind_ok.mp hs
      cases hs
      have hw := ensureUsage_waiting hs2
      dsimp only at hw
      rw [obtainTqueue_waiting] at hw
      exact (Waits.eraseP (isSuspended t.id) s.waiting).trans (.ofEq hw)
  · split at h
    · split at h
      · cases h
        exact .refl _
      · cases h
        exact .refl _
    · cases h
      exact .refl _

theorem wake_waits (flush : Option Str) (now : ℤ) {ts : List Task}
    (h : wake flush now ts s = .ok s') : Waits ts s'.waiting := by
  induction ts generalizing s with
  | nil =>
    cases h
    exact .refl []
  | cons t ts ih =>
    rw [wake] at h
    split at h
    · obtain ⟨s1, -, h⟩ := bind_ok.mp h
      exact (Waits.tail t ts).trans (ih h)
    · cases h
      exact .refl (t::ts)

theorem runInput_waiting (q : ℕ) (t : Input.Task) (parses : Bool) (newId : ℤ) (s : Server) :
    (s.runInput q t parses newId).waiting = s.waiting := by
  unfold runInput
  split
  · rfl
  · split
    · rfl
    · split
      · rfl
      · split
        · rfl
        · rfl

theorem dispatch_waiting (parses : Bool) (newId : ℤ) (s : Server) :
    (s.dispatch parses newId).waiting = s.waiting := by
  unfold Server.dispatch
  split
  · rfl
  · next q qs _ =>
    dsimp only
    split
    · rfl
    · split
      · next t s1 hd =>
        rw [runInput_waiting]
        exact (congrArg (fun r => r.2.waiting) hd).symm.trans (dequeueInputTask_waiting _ q s)
      · split
        · next t s1 hd =>
          exact (congrArg (fun r => r.2.waiting) hd).symm.trans (dequeueBgTask_waiting q s)
        · rfl

theorem freeSpent_waiting (qs : List ℕ) (s : Server) : (s.freeSpent qs).waiting = s.waiting := by
  induction qs generalizing s with
  | nil => rfl
  | cons q qs ih =>
    rw [freeSpent, ih]
    split
    · rfl
    · rfl

theorem leaveTasks_waiting (flush : Option Str) (q : ℕ) (oldPlayer : ℤ) (s : Server) :
    (s.leaveTasks flush q oldPlayer).waiting = s.waiting := by
  unfold leaveTasks
  split
  · exact obtainTqueue_waiting flush oldPlayer s
  · rfl

theorem doLogin_waiting {flush : Option Str} {q newPlayer : ℕ}
    (h : s.doLogin flush q newPlayer = .ok s') : s'.waiting = s.waiting := by
  unfold doLogin at h
  dsimp only at h
  split at h
  · cases h
    exact leaveTasks_waiting _ _ _ _
  · split at h
    · exact (freeTaskQueue_waiting h).trans (leaveTasks_waiting _ _ _ _)
    · cases h
      exact leaveTasks_waiting _ _ _ _

theorem login_waiting {flush : Option Str} {user : Option ℕ} (h : s.login flush user = .ok s') :
    s'.waiting = s.waiting := by
  unfold Server.login at h
  split at h
  · split at h
    · split at h
      · obtain ⟨s1, hs, h⟩ := bind_ok.mp h
        have hw := doLogin_waiting hs
        exact Except.ok.inj h ▸ hw
      · cases h
        rfl
    · cases h
      rfl
  · cases h
    rfl

theorem step_waits {op : Op} (h : s.step op = .ok s') : Waits s.waiting s'.waiting := by
  cases op with
  | connect flush => exact .ofEq (Except.ok.inj h ▸ newConnection_waiting flush s)
  | disconnect q =>
    rw [step] at h
    split at h
    · exact .ofEq (freeTaskQueue_waiting h)
    · exact .ofEq (Except.ok.inj h ▸ rfl)
  | flushCommand q cmd =>
    rw [step] at h
    split at h
    · exact .ofEq (Except.ok.inj h ▸ rfl)
    · exact .ofEq (Except.ok.inj h ▸ rfl)
  | holdInput q value =>
    rw [step] at h
    split at h
    · exact .ofEq (setHoldInput_waiting h)
    · exact .ofEq (Except.ok.inj h ▸ rfl)
  | disableOob q value =>
    rw [step] at h
    split at h
    · exact .ofEq (setDisableOob_waiting h)
    · exact .ofEq (Except.ok.inj h ▸ rfl)
  | input q line binary =>
    rw [step] at h
    split at h
    · exact .ofEq (newInputTask_waiting h)
    · exact .ofEq (Except.ok.inj h ▸ rfl)
  | forceInput flush conn line atFront =>
    exact .ofEq ((enqueueInputTask_waiting h).trans (obtainTqueue_waiting flush conn s))
  | flushInput flush conn => exact .ofEq (Except.ok.inj h ▸ bfFlushInput_waiting flush conn s)
  | enqueue flush limits t =>
    rw [← Except.ok.inj h, enqueueTask]
    split
    · rw [← obtainTqueue_waiting flush t.progr s]
      exact .enqueue t _
    · exact .refl _
  | restore flush t =>
    rw [← Except.ok.inj h, ← obtainTqueue_waiting flush t.progr s]
    exact .enqueue t _
  | resumeTask flush id progr value => exact .ofEq (resumeTask_waiting h)
  | readNow conn => exact .ofEq (Except.ok.inj h ▸ readInputNow_waiting conn s)
  | read player id => exact .ofEq (makeReadingTask_waiting h)
  | kill id owner wizard => exact Except.ok.inj h ▸ killTask_waits id owner wizard s
  | resume flush id value progr wizard now =>
    obtain ⟨r, hr, h⟩ := bind_ok.mp h
    exact Except.ok.inj h ▸ doResume_waits hr
  | wake flush now =>
    rw [step] at h
    split at h
    · exact wake_waits flush now h
    · exact .ofEq (Except.ok.inj h ▸ rfl)
  | dispatch parses newId =>
    rw [step] at h
    split at h
    · exact .ofEq (Except.ok.inj h ▸ dispatch_waiting parses newId s)
    · exact .ofEq (Except.ok.inj h ▸ rfl)
  | login flush user => exact .ofEq (login_waiting h)
  | finish elapsed =>
    rw [step] at h
    split at h
    · exact .ofEq (Except.ok.inj h ▸ rfl)
    · exact .ofEq (Except.ok.inj h ▸ rfl)
  | freeSpent =>
    rw [step] at h
    split at h
    · exact .ofEq (Except.ok.inj h ▸ freeSpent_waiting s.idle s)
    · exact .ofEq (Except.ok.inj h ▸ rfl)

end Frames

end Server

theorem run_waits {ops : List Op} {s s' : Server} (h : run ops s = .ok s') :
    Server.Waits s.waiting s'.waiting := by
  induction ops generalizing s with
  | nil => exact .ofEq (Except.ok.inj h ▸ rfl)
  | cons op ops ih =>
    obtain ⟨s1, hs, h⟩ := bind_ok.mp h
    exact (Server.step_waits hs).trans (ih h)

/-- The tasks that wait in any run are in order. -/
theorem run_queued {ops : List Op} {s : Server} (h : run ops init = .ok s) :
    ∃ waits xs, Server.Queued waits xs ∧ s.waiting = xs.map Prod.snd := by
  obtain ⟨waits, hw⟩ := run_waits h
  obtain ⟨xs, hx⟩ := Server.waitRun_queued waits
  exact ⟨waits, xs, hx, hw.trans hx.tasks.symm⟩

namespace Server

/-- When a task that is forked or suspended with a delay is not early, and that waiting tasks are in
order whatever is queued and taken away. -/
theorem delays_iff (flush : Option Str) (limits : Limits) (now : ℤ) (t : Task) (s : Server)
    (wraps : Bool) (d : Num) :
    (Delays flush limits now t s d.toInt (.ok (s.fork flush limits now t (.int d))) ↔
      (0 ≤ d.toInt → s.checkUserTaskLimit t.progr limits = true →
        d.toInt < 2^32 ∨ now+d.toInt % 2^32 = int32Max)) ∧
    (Delays flush limits now t s d.toInt (s.bfSuspend flush limits now t wraps (some d)) ↔
      (toInt32 d < 0 ↔ d.toInt < 0) ∧ (0 ≤ d.toInt → s.checkUserTaskLimit t.progr limits = true →
        (intOf now+toInt32 d ≤ int32Max ∨ wraps = true) ∧
        (now+d.toInt ≤ intOf now+toInt32 d ∨ int32Max ≤ intOf now+toInt32 d))) ∧
    (∀ ops, ∃ xs, Queued ops xs) ∧
    ∀ ops s', run ops init = .ok s' → ∃ waits xs, Queued waits xs ∧ s'.waiting = xs.map Prod.snd :=
  ⟨fork_iff d, bfSuspend_iff wraps d, waitRun_queued, fun _ _ => run_queued⟩

/-- A task whose programmer is #3. -/
def sleeper : Task := ⟨.forked, 17, 3, 0, zero⟩

/-- A delay of 2^32 seconds is none at all, for a fork as for a suspension; one of 2^31 seconds is
refused by `suspend`, and one of -2^32 is not. -/
theorem delay_lost :
    ¬Delays none ⟨none, none⟩ 1700000000 sleeper init (2^32)
      (.ok (init.fork none ⟨none, none⟩ 1700000000 sleeper (.int (2^32)))) ∧
    ¬Delays none ⟨none, none⟩ 1700000000 sleeper init (2^32)
      (init.bfSuspend none ⟨none, none⟩ 1700000000 sleeper true (some (2^32))) ∧
    ¬Delays none ⟨none, none⟩ 1700000000 sleeper init (2^31)
      (init.bfSuspend none ⟨none, none⟩ 1700000000 sleeper true (some (2^31))) ∧
    ¬Delays none ⟨none, none⟩ 1700000000 sleeper init (-2^32)
      (init.bfSuspend none ⟨none, none⟩ 1700000000 sleeper true (some (-2^32))) := by
  refine ⟨fun h => ?_, fun h => ?_, fun h => ?_, fun h => ?_⟩
  · have := (fork_iff (2^32)).mp h (by decide) (by decide)
    exact absurd this (by decide)
  · have := ((bfSuspend_iff true (2^32)).mp h).2 (by decide) (by decide)
    exact absurd this.2 (by decide)
  · have := ((bfSuspend_iff true (2^31)).mp h).1
    exact absurd this (by decide)
  · have := ((bfSuspend_iff true (-2^32)).mp h).1
    exact absurd this (by decide)

end Server

end LambdaMoo.Tasks
