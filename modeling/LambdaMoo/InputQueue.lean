import Mathlib.Tactic.Linarith
import LambdaMoo.Links
import LambdaMoo.Values

/-!
# The input queue of a task queue

Input tasks wait on one list, in the order they are to be read. A second chain,
through `next_itail`, threads the last tasks of the runs of out-of-band and of
other tasks, so that the first task of the other class is found without a walk.
`none` as a result is a null pointer followed.
-/

set_option autoImplicit false

namespace LambdaMoo.Input

open LambdaMoo.Linked

inductive Kind where
  | inband
  | oob
  | quoted
  | binary
  deriving DecidableEq, Repr

structure Task where
  kind : Kind
  string : List UInt8
  length : ℕ
  deriving DecidableEq, Repr

/-- What the queue asks of the rest of the server. -/
inductive Call where
  | ensureUsage
  | suspendInput
  | resumeInput
  deriving DecidableEq, Repr

/-- `totalInputLength` is an `int` in the source, and `totalInputLength_fits` says which runs it
holds. -/
structure TQueue where
  input : Links ℕ
  itail : Links ℕ
  task : ℕ → Task
  lastInput : Slot ℕ
  lastItail : Slot ℕ
  totalInputLength : ℤ
  inputSuspended : Bool
  connected : Bool
  holdInput : Bool
  disableOob : Bool
  reading : Bool
  calls : List Call
  fresh : ℕ

def newTqueue : TQueue where
  input := ⟨none, fun _ => none⟩
  itail := ⟨none, fun _ => none⟩
  task := fun _ => ⟨.inband, [], 0⟩
  lastInput := .head
  lastItail := .head
  totalInputLength := 0
  inputSuspended := false
  connected := false
  holdInput := false
  disableOob := false
  reading := false
  calls := []
  fresh := 0

def OUT_OF_BAND_PREFIX : List UInt8 := ascii "#$#"
def OUT_OF_BAND_QUOTE_PREFIX : List UInt8 := ascii "#$\""
def INPUT_HIWAT : ℤ := 65536
def INPUT_LOWAT : ℤ := INPUT_HIWAT / 2

def kindOf (input : List UInt8) (binary : Bool) : Kind :=
  if binary then .binary
  else if OUT_OF_BAND_QUOTE_PREFIX.length > 0 ∧ OUT_OF_BAND_QUOTE_PREFIX.isPrefixOf input then
    .quoted
  else if OUT_OF_BAND_PREFIX.length > 0 ∧ OUT_OF_BAND_PREFIX.isPrefixOf input then .oob
  else .inband

def isOob (t : Task) : Bool := t.kind = .oob

/-- The links of `enqueue_input_task` when the task goes to the front of a queue that starts
with `f`. -/
def linkFront (t f : ℕ) (tq : TQueue) : TQueue :=
  let tq := { tq with itail := tq.itail.set (.next t) none }
  let tq :=
    if isOob (tq.task f) ≠ isOob (tq.task t) then
      { tq with
        itail := (tq.itail.set (.next t) tq.itail.head).set .head (some t)
        lastItail := if tq.lastItail = .head then .next t else tq.lastItail }
    else tq
  { tq with input := (tq.input.set (.next t) tq.input.head).set .head (some t) }

/-- The same at the rear. -/
def linkRear (t : ℕ) (tq : TQueue) : Option TQueue := do
  let tq := { tq with itail := tq.itail.set (.next t) none }
  let lastItail ←
    if tq.input.head ≠ none then do
      let z ← tq.itail.get tq.lastItail
      pure (if isOob (tq.task z) ≠ isOob (tq.task t) then Slot.next z else tq.lastItail)
    else pure tq.lastItail
  pure { tq with
    lastItail := lastItail
    itail := tq.itail.set lastItail (some t)
    input := (tq.input.set tq.lastInput (some t)).set (.next t) none
    lastInput := .next t }

def newInputTask (input : List UInt8) (binary : Bool) : Task :=
  ⟨kindOf input binary, input, input.length⟩

def allocTask (task : Task) (tq : TQueue) : TQueue :=
  { tq with
    task := Function.update tq.task tq.fresh task
    fresh := tq.fresh + 1
    totalInputLength := tq.totalInputLength + task.length }

def linkTask (t : ℕ) (atFront : Bool) (tq : TQueue) : Option TQueue :=
  match atFront, tq.input.head with
  | true, some f => some (linkFront t f tq)
  | true, none => linkRear t tq
  | false, _ => linkRear t tq

/-- The end of `enqueue_input_task`: wake the queue up, and stop a connection that sends too
much. -/
def noticeTask (t : ℕ) (tq : TQueue) : TQueue :=
  let tq :=
    if !tq.holdInput || tq.reading || (!tq.disableOob && isOob (tq.task t)) then
      { tq with calls := tq.calls ++ [.ensureUsage] }
    else tq
  if tq.inputSuspended = false ∧ tq.connected = true ∧ tq.totalInputLength > INPUT_HIWAT then
    { tq with calls := tq.calls ++ [.suspendInput], inputSuspended := true }
  else tq

def enqueueInputTask (input : List UInt8) (atFront binary : Bool) (tq : TQueue) :
    Option TQueue :=
  (linkTask tq.fresh atFront (allocTask (newInputTask input binary) tq)).map (noticeTask tq.fresh)

inductive How where
  | first
  | oob
  | inband
  deriving DecidableEq, Repr

/-- `how == (kind == TASK_OOB)`: the first task is of the class that is not asked for. -/
def How.other : How → Bool → Bool
  | .first, _ => false
  | .oob, k => !k
  | .inband, k => k

/-- The `next_itail` pointers when `t` leaves and may be a run of its own. -/
def unlinkItail (t : ℕ) (pitail : Slot ℕ) (tq : TQueue) : TQueue :=
  if tq.itail.get pitail = some t then
    let itail := tq.itail.set pitail none
    let itail :=
      match itail.next t with
      | some x => (itail.set .head (some x)).set (.next t) none
      | none => itail
    { tq with
      itail := itail
      lastItail := if itail.get tq.lastItail = none then .head else tq.lastItail }
  else tq

def unlinkInput (t : ℕ) (pt : Slot ℕ) (tq : TQueue) : TQueue :=
  let input := tq.input.set pt (tq.input.next t)
  if input.next t = none then { tq with input := input, lastInput := pt }
  else { tq with input := input.set (.next t) none }

/-- What becomes of the task itself: quoted lines lose their quote, unless `disable_oob`. -/
def delivered (disableOob : Bool) (t : Task) : Task :=
  match t.kind with
  | .oob => if disableOob then { t with kind := .inband } else t
  | .quoted =>
    { t with
      kind := .inband
      string := if disableOob then t.string else t.string.drop OUT_OF_BAND_QUOTE_PREFIX.length }
  | .inband => t
  | .binary => t

def resumeInput (tq : TQueue) : TQueue :=
  if tq.inputSuspended = true ∧ tq.connected = true ∧ tq.totalInputLength < INPUT_LOWAT then
    { tq with calls := tq.calls ++ [.resumeInput], inputSuspended := false }
  else tq

def takeInputTask (t : ℕ) (pt pitail : Slot ℕ) (tq : TQueue) : TQueue :=
  let tq := unlinkItail t pitail (unlinkInput t pt tq)
  let tq := resumeInput
    { tq with totalInputLength := tq.totalInputLength - (tq.task t).length }
  { tq with task := Function.update tq.task t (delivered tq.disableOob (tq.task t)) }

/-- The slots to take a task from, in the two chains. -/
def takeSlot (how : How) (f : ℕ) (tq : TQueue) : Option (Slot ℕ) :=
  if how.other (isOob (tq.task f)) then tq.itail.head.map Slot.next else some .head

def dequeueInputTask (how : How) (tq : TQueue) : Option (Option ℕ × TQueue) :=
  if tq.disableOob = true ∧ how = .oob then some (none, tq)
  else
    let how := if tq.disableOob then .first else how
    match tq.input.head with
    | none => some (none, tq)
    | some f =>
      (takeSlot how f tq).map fun pt =>
        match tq.input.get pt with
        | none => (none, tq)
        | some t => (some t, takeInputTask t pt pt tq)

inductive Op where
  | enqueue (input : List UInt8) (atFront binary : Bool)
  | dequeue (how : How)
  | setDisableOob (b : Bool)
  | setFlags (connected holdInput reading inputSuspended : Bool)

/-- The bytes that come in. -/
def Op.bytes : Op → ℕ
  | .enqueue input _ _ => input.length
  | .dequeue _ => 0
  | .setDisableOob _ => 0
  | .setFlags _ _ _ _ => 0

/-- One operation, with the task it hands out. -/
def step (tq : TQueue) : Op → Option (TQueue × Option (ℕ × Task))
  | .enqueue input atFront binary =>
    (enqueueInputTask input atFront binary tq).map fun tq => (tq, none)
  | .dequeue how =>
    (dequeueInputTask how tq).map fun r => (r.2, r.1.map fun t => (t, r.2.task t))
  | .setDisableOob b => some ({ tq with disableOob := b }, none)
  | .setFlags connected holdInput reading inputSuspended =>
    some ({ tq with
      connected := connected
      holdInput := holdInput
      reading := reading
      inputSuspended := inputSuspended }, none)

def run : List Op → TQueue → Option (TQueue × List (ℕ × Task))
  | [], tq => some (tq, [])
  | op :: ops, tq => do
    let (tq, out) ← step tq op
    let (tq, outs) ← run ops tq
    pure (tq, out.toList ++ outs)

/-! What the queue is for: a list of tasks, of which `dequeue` takes the first that is asked
for. -/

structure Spec where
  queue : List (ℕ × Task)
  disableOob : Bool
  fresh : ℕ

/-- The class a dequeue asks for; with `disable_oob` every task is in-band. -/
def wanted (disableOob : Bool) (how : How) (p : ℕ × Task) : Bool :=
  match how with
  | .first => true
  | .oob => !disableOob && isOob p.2
  | .inband => disableOob || !isOob p.2

def Spec.step (s : Spec) : Op → Spec × Option (ℕ × Task)
  | .enqueue input atFront binary =>
    let p := (s.fresh, newInputTask input binary)
    ({ s with
      queue := if atFront then p :: s.queue else s.queue ++ [p]
      fresh := s.fresh + 1 }, none)
  | .dequeue how =>
    ({ s with queue := s.queue.eraseP (wanted s.disableOob how) },
      (s.queue.find? (wanted s.disableOob how)).map fun p => (p.1, delivered s.disableOob p.2))
  | .setDisableOob b => ({ s with disableOob := b }, none)
  | .setFlags _ _ _ _ => (s, none)

def Spec.run : List Op → Spec → Spec × List (ℕ × Task)
  | [], s => (s, [])
  | op :: ops, s =>
    let r := s.step op
    let q := Spec.run ops r.1
    (q.1, r.2.toList ++ q.2)

/-- The last of each maximal run of elements of one class. -/
def runTails {α : Type} (f : α → Bool) : List α → List α
  | [] => []
  | [a] => [a]
  | a :: b :: l => if f a = f b then runTails f (b :: l) else a :: runTails f (b :: l)

def tails (queue : List (ℕ × Task)) : List ℕ :=
  (runTails (fun p => isOob p.2) queue).map Prod.fst

/-- The two chains of pointers stand for the list of tasks. `last_itail` is one slot short of
the end of its chain. -/
structure Chained (tq : TQueue) (queue : List (ℕ × Task)) : Prop where
  input : Lists tq.input (queue.map Prod.fst)
  lastInput : tq.lastInput = final .head (queue.map Prod.fst)
  itail : Lists tq.itail (tails queue)
  lastItail : tq.lastItail = final .head (tails queue).dropLast
  tasks : ∀ p ∈ queue, tq.task p.1 = p.2

structure Shaped (tq : TQueue) (s : Spec) : Prop where
  chained : Chained tq s.queue
  total : tq.totalInputLength = (s.queue.map fun p => (p.2.length : ℤ)).sum
  disableOob : tq.disableOob = s.disableOob
  fresh : tq.fresh = s.fresh
  live : ∀ p ∈ s.queue, p.1 < s.fresh

section RunTails

variable {α : Type} {f : α → Bool} {a b z : α} {l m : List α}

theorem runTails_sublist (l : List α) : (runTails f l).Sublist l := by
  induction l with
  | nil => exact List.Sublist.refl _
  | cons a l ih =>
    cases l with
    | nil => exact List.Sublist.refl _
    | cons b l =>
      unfold runTails
      split
      · exact ih.cons a
      · exact ih.cons_cons a

theorem runTails_last (l : List α) (z : α) : ∃ m, runTails f (l ++ [z]) = m ++ [z] := by
  induction l with
  | nil => exact ⟨[], rfl⟩
  | cons a l ih =>
    obtain ⟨m, hm⟩ := ih
    cases l with
    | nil =>
      rw [List.cons_append, List.nil_append, runTails]
      split
      · exact ⟨[], rfl⟩
      · exact ⟨[a], rfl⟩
    | cons b l =>
      rw [List.cons_append] at hm ⊢
      rw [List.cons_append, runTails, hm]
      split
      · exact ⟨m, rfl⟩
      · exact ⟨a :: m, rfl⟩

/-- One more element at the end starts a run of its own or takes over the last one. -/
theorem runTails_concat (h : runTails f (l ++ [z]) = m ++ [z]) (a : α) :
    runTails f (l ++ [z] ++ [a]) = if f z = f a then m ++ [a] else m ++ [z, a] := by
  induction l generalizing m with
  | nil =>
    have hm : m = [] := by
      have := congrArg List.length h
      simpa [runTails] using this
    subst hm
    simp only [List.nil_append, List.cons_append, runTails]
  | cons b l ih =>
    cases l with
    | nil =>
      simp only [List.nil_append, List.cons_append, runTails] at *
      split at h <;> rename_i hb
      · have hm : m = [] := by
          have := congrArg List.length h
          simpa using this
        subst hm
        simp [hb]
      · have hm : m = [b] := by
          have : [b] ++ [z] = m ++ [z] := h
          exact (List.append_cancel_right this).symm
        subst hm
        simp only [hb, if_false]
        split <;> rfl
    | cons c l =>
      simp only [List.cons_append, runTails] at *
      split at h <;> rename_i hb
      · rw [if_pos hb]
        exact ih h
      · rw [if_neg hb]
        cases m with
        | nil =>
          have hlen := congrArg List.length h
          obtain ⟨n, hn⟩ := runTails_last (f := f) (c :: l) z
          rw [List.cons_append] at hn
          rw [hn] at hlen
          simp at hlen
        | cons d m =>
          rw [List.cons_append, List.cons.injEq] at h
          obtain ⟨rfl, h⟩ := h
          rw [ih h]
          split <;> rfl

/-- The elements before `z` that are in its run do not count. -/
theorem runTails_run (h : ∀ x ∈ l, f x = f z) : runTails f (l ++ z :: m) = runTails f (z :: m) := by
  induction l with
  | nil => rfl
  | cons a l ih =>
    have ih' := ih fun x hx => h x (List.mem_cons_of_mem _ hx)
    cases l with
    | nil =>
      have ha := h a List.mem_cons_self
      simp only [List.nil_append, List.cons_append, runTails]
      rw [if_pos ha]
    | cons b l =>
      have ha := h a List.mem_cons_self
      have hb := h b (by simp)
      simp only [List.cons_append, runTails] at *
      rw [if_pos (ha.trans hb.symm)]
      exact ih'

/-- The first run, up to its last element. -/
theorem exists_run (f : α → Bool) (a : α) (l : List α) :
    ∃ r z m, a :: l = r ++ z :: m ∧ (∀ x ∈ r, f x = f z) ∧ f z = f a ∧
      ∀ x ∈ m.head?, f x ≠ f z := by
  induction l generalizing a with
  | nil => exact ⟨[], a, [], rfl, by simp, rfl, by simp⟩
  | cons b l ih =>
    by_cases h : f a = f b
    · obtain ⟨r, z, m, hl, hr, hz, hm⟩ := ih b
      refine ⟨a :: r, z, m, by rw [hl]; rfl, ?_, hz.trans h.symm, hm⟩
      intro x hx
      rcases List.mem_cons.mp hx with rfl | hx
      · exact h.trans hz.symm
      · exact hr x hx
    · refine ⟨[], a, b :: l, rfl, by simp, rfl, ?_⟩
      intro x hx
      cases hx
      exact fun hb => h hb.symm

end RunTails

end LambdaMoo.Input
