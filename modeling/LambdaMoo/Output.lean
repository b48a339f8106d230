import Mathlib.Tactic.Linarith
import LambdaMoo.Links
import LambdaMoo.Values

/-!
# The output queue of a connection

Lines wait as text blocks on a linked list with a tail pointer. `pushOutput`
writes from the head, and any write may stop short or be refused;
`enqueueOutput` discards blocks from the head when the queue overflows and
leaves their number for a notice that the next push writes first. `wire` is what
the connection has received; `accepted` and `lost` record, for the statements
only, the lines queued and the lines discarded.
-/

set_option autoImplicit false

namespace LambdaMoo.Output

open LambdaMoo.Linked

abbrev Text := List UInt8

def MAX_QUEUED_OUTPUT : ℤ := 65536

structure TextBlock where
  length : ℕ
  buffer : Text
  start : ℕ

/-- `outputLength` and `outputLinesFlushed` are `int`s in the source, and `counters_fit` says
which runs they hold. -/
structure Conn where
  links : Links ℕ
  block : ℕ → TextBlock
  outputTail : Slot ℕ
  outputLength : ℤ
  outputLinesFlushed : ℕ
  wire : Text
  accepted : List Text
  lost : List Text

def newConn : Conn where
  links := ⟨none, fun _ => none⟩
  block := fun _ => ⟨0, [], 0⟩
  outputTail := .head
  outputLength := 0
  outputLinesFlushed := 0
  wire := []
  accepted := []
  lost := []

/-- What a `write` does: some bytes go out, it would block, or it fails. -/
inductive Outcome where
  | wrote (n : ℕ)
  | again
  | error
  deriving DecidableEq, Repr

section Protocol

variable (eolOutString : Text)

def lossNotice (n : ℕ) : Text :=
  eolOutString ++ ascii ">> Network buffer overflow: " ++ ascii (Nat.repr n) ++
    ascii " line" ++ ascii (if n = 1 then "" else "s") ++ ascii " of output to you " ++
    ascii (if n = 1 then "has" else "have") ++ ascii " been lost <<" ++ eolOutString

/-- The loop of `push_output` over the queued blocks. A list of outcomes that is used up stands
for a connection that would block. -/
def pushBlocks : List Outcome → Conn → Bool × Conn
  | [], c =>
    match c.links.head with
    | none => (true, { c with outputTail := .head })
    | some _ => (true, c)
  | o :: outcomes, c =>
    match c.links.head with
    | none => (true, { c with outputTail := .head })
    | some b =>
      match o with
      | .again => (true, c)
      | .error => (false, c)
      | .wrote n =>
        let t := c.block b
        let count := min n t.length
        let c := { c with
          wire := c.wire ++ (t.buffer.drop t.start).take count
          outputLength := c.outputLength - count }
        if count = t.length then
          pushBlocks outcomes { c with links := c.links.set .head (c.links.next b) }
        else
          pushBlocks outcomes
            { c with
              block := Function.update c.block b
                ⟨t.length - count, t.buffer, t.start + count⟩ }

def pushOutput (outcomes : List Outcome) (c : Conn) : Bool × Conn :=
  if 0 < c.outputLinesFlushed then
    match outcomes with
    | [] => (true, c)
    | .again :: _ => (true, c)
    | .error :: _ => (false, c)
    | .wrote n :: outcomes =>
      let buf := lossNotice eolOutString c.outputLinesFlushed
      let count := min n buf.length
      let c := { c with wire := c.wire ++ buf.take count }
      if count = buf.length then pushBlocks outcomes { c with outputLinesFlushed := 0 }
      else (true, c)
  else pushBlocks outcomes c

/-- The loop of `enqueue_output` that discards blocks from the head; `none` is a loop that
did not end. -/
def flushBlocks : ℕ → ℤ → Conn → Option Conn
  | fuel, toFlush, c =>
    if toFlush > 0 then
      match c.links.head with
      | none => some c
      | some b =>
        match fuel with
        | 0 => none
        | fuel + 1 =>
          flushBlocks fuel (toFlush - (c.block b).length)
            { c with
              outputLength := c.outputLength - (c.block b).length
              outputLinesFlushed := c.outputLinesFlushed + 1
              links := c.links.set .head (c.links.next b)
              lost := c.lost ++ [(c.block b).buffer] }
    else some c

def resetTail (c : Conn) : Conn :=
  match c.links.head with
  | none => { c with outputTail := .head }
  | some _ => c

def appendBlock (buffer : Text) (c : Conn) : Conn :=
  let b := c.accepted.length
  { c with
    block := Function.update c.block b ⟨buffer.length, buffer, 0⟩
    links := (c.links.set (.next b) none).set c.outputTail (some b)
    outputTail := .next b
    outputLength := c.outputLength + buffer.length
    accepted := c.accepted ++ [buffer] }

def overflows (buffer : Text) (c : Conn) : Prop :=
  c.outputLength ≠ 0 ∧ c.outputLength + buffer.length > MAX_QUEUED_OUTPUT

instance (buffer : Text) (c : Conn) : Decidable (overflows buffer c) :=
  inferInstanceAs (Decidable (_ ∧ _))

def withEol (line : Text) (addEol : Bool) : Text :=
  line ++ if addEol then eolOutString else []

def enqueueOutput (line : Text) (addEol flushOk : Bool) (outcomes : List Outcome) (c : Conn) :
    Option (Bool × Conn) :=
  let buffer := withEol eolOutString line addEol
  if overflows buffer c then
    let c := (pushOutput eolOutString outcomes c).2
    let toFlush := c.outputLength + buffer.length - MAX_QUEUED_OUTPUT
    if toFlush > 0 ∧ flushOk = false then some (false, c)
    else (flushBlocks c.accepted.length toFlush c).map fun c =>
      (true, appendBlock buffer (resetTail c))
  else some (true, appendBlock buffer c)

inductive Op where
  | push (outcomes : List Outcome)
  | enqueue (line : Text) (addEol flushOk : Bool) (outcomes : List Outcome)

def step (c : Conn) : Op → Option Conn
  | .push outcomes => some (pushOutput eolOutString outcomes c).2
  | .enqueue line addEol flushOk outcomes =>
    (enqueueOutput eolOutString line addEol flushOk outcomes c).map Prod.snd

def run : List Op → Conn → Option Conn
  | [], c => some c
  | op :: ops, c => (step eolOutString c op).bind (run ops)

/-- The lines whose `enqueueOutput` returned 1. -/
def queuedLines : List Op → Conn → List Text
  | [], _ => []
  | .push outcomes :: ops, c => queuedLines ops (pushOutput eolOutString outcomes c).2
  | .enqueue line addEol flushOk outcomes :: ops, c =>
    (enqueueOutput eolOutString line addEol flushOk outcomes c).elim [] fun r =>
      (if r.1 then [withEol eolOutString line addEol] else []) ++ queuedLines ops r.2

/-- What became of a line, or a notice, in the order the connection saw them. -/
inductive Item where
  | sent (text : Text)
  | lost (text : Text) (k : ℕ)
  | notice (n : ℕ)

def Item.bytes : Item → Text
  | .sent text => text
  | .lost text k => text.take k
  | .notice n => lossNotice eolOutString n

def Item.text? : Item → Option Text
  | .sent text => some text
  | .lost text _ => some text
  | .notice _ => none

def Item.lost? : Item → Option Text
  | .lost text _ => some text
  | .sent _ => none
  | .notice _ => none

def Item.count : Item → ℕ
  | .notice n => n
  | .sent _ => 0
  | .lost _ _ => 0

/-- The part of the head block that is already written. -/
def written (c : Conn) (queue : List ℕ) : Text :=
  queue.head?.elim [] fun b => (c.block b).buffer.take (c.block b).start

/-- The state of the queue, and what it has done so far. -/
structure History (c : Conn) (queue : List ℕ) (items : List Item) (part : Text) : Prop where
  lists : Lists c.links queue
  length : c.outputLength = (queue.map fun b => ((c.block b).length : ℤ)).sum
  remaining : ∀ b ∈ queue, (c.block b).start + (c.block b).length = (c.block b).buffer.length
  accepted : c.accepted = items.filterMap Item.text? ++ queue.map fun b => (c.block b).buffer
  lost : c.lost = items.filterMap Item.lost?
  counted : c.lost.length = (items.map Item.count).sum + c.outputLinesFlushed
  positive : ∀ n, .notice n ∈ items → 0 < n
  wire : c.wire = items.flatMap (Item.bytes eolOutString) ++ part

/-- Nothing is lost, repeated or out of order beyond what the notices own up to. The last item
may be under way: the written part of the head block, or a first part of the pending notice. -/
def Intact (c : Conn) : Prop :=
  ∃ queue items part, History eolOutString c queue items part ∧
    c.outputTail = final .head queue ∧
    (part = written c queue ∨
      0 < c.outputLinesFlushed ∧ part <+: lossNotice eolOutString c.outputLinesFlushed)

/-- A push whose first write is a notice writes all of it or nothing. -/
def WholeNotice (c : Conn) (outcomes : List Outcome) : Prop :=
  0 < c.outputLinesFlushed → ∀ n rest, outcomes = .wrote n :: rest →
    n = 0 ∨ (lossNotice eolOutString c.outputLinesFlushed).length ≤ n

def Op.Whole (c : Conn) : Op → Prop
  | .push outcomes => WholeNotice eolOutString c outcomes
  | .enqueue line addEol _ outcomes =>
    overflows (withEol eolOutString line addEol) c → WholeNotice eolOutString c outcomes

/-- A line has fewer than `2^30` bytes with its end. -/
def Op.Short : Op → Prop
  | .push _ => True
  | .enqueue line addEol _ _ => (withEol eolOutString line addEol).length < 2^30

/-- Every step of the run meets the condition in the state it is taken in. -/
def WholeRun : List Op → Conn → Prop
  | [], _ => True
  | op :: ops, c =>
    op.Whole eolOutString c ∧ ∀ c', step eolOutString c op = some c' → WholeRun ops c'

end Protocol

end LambdaMoo.Output
