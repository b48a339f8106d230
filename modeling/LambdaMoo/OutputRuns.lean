import Mathlib.Algebra.Order.BigOperators.Group.List
import LambdaMoo.Output

/-!
# Runs of the output queue

One lemma for each thing that happens to the queue: the head block is written
in full or in part, or discarded, the notice is written, a block is appended.
Every loop and every run is a sequence of these. The last part follows a queue
that overflows, with a notice written at once and with one written in two goes.
-/

set_option autoImplicit false

namespace LambdaMoo.Output

open LambdaMoo.Linked

/-- The invariant of the runs: only the head block may be partly written, and not even that one
while a notice is pending. -/
structure Inv (eolOutString : Text) (c : Conn) (queue : List ℕ) (items : List Item) : Prop
    extends History eolOutString c queue items (written c queue) where
  live : ∀ b ∈ queue, b < c.accepted.length
  unwritten : ∀ b ∈ queue.tail, (c.block b).start = 0
  pending : 0 < c.outputLinesFlushed → ∀ b ∈ queue, (c.block b).start = 0

variable {eolOutString : Text} {c : Conn} {queue : List ℕ} {items : List Item} {b : ℕ}

theorem written_nil (h : ∀ a ∈ queue, (c.block a).start = 0) : written c queue = [] := by
  cases queue with
  | nil => rfl
  | cons a queue => simp [written, h a List.mem_cons_self]

theorem map_update {β : Type} {block : ℕ → TextBlock} {t : TextBlock} (h : ∀ a ∈ queue, a ≠ b)
    (f : TextBlock → β) :
    queue.map (fun a => f (Function.update block b t a)) = queue.map fun a => f (block a) := by
  apply List.map_congr_left
  intro a ha
  rw [Function.update_of_ne (h a ha)]

/-- The head block leaves the queue: what is still unwritten of it is what `part` adds to the
wire, all of it or none. -/
theorem History.pop {part : Text} (h : History eolOutString c (b :: queue) items part) :
    Lists (c.links.set .head (c.links.next b)) queue ∧
      c.outputLength - (c.block b).length = (queue.map fun a => ((c.block a).length : ℤ)).sum := by
  constructor
  · exact Lists.remove (l := []) h.lists
  · rw [h.length]
    simp

theorem Inv.wrote_block (h : Inv eolOutString c (b :: queue) items)
    (hf : c.outputLinesFlushed = 0) :
    Inv eolOutString { c with
      wire := c.wire ++ ((c.block b).buffer.drop (c.block b).start).take (c.block b).length
      outputLength := c.outputLength - (c.block b).length
      links := c.links.set .head (c.links.next b) } queue (items ++ [.sent (c.block b).buffer]) := by
  have hrem := h.remaining b List.mem_cons_self
  have hnone : written c queue = [] := written_nil h.unwritten
  have htake : ((c.block b).buffer.drop (c.block b).start).take (c.block b).length =
      (c.block b).buffer.drop (c.block b).start :=
    List.take_of_length_le (by rw [List.length_drop]; omega)
  refine ⟨⟨h.pop.1, h.pop.2, fun a ha => h.remaining a (List.mem_cons_of_mem _ ha), ?_, ?_, ?_,
    ?_, ?_⟩, fun a ha => h.live a (List.mem_cons_of_mem _ ha),
    fun a ha => h.unwritten a (List.mem_of_mem_tail ha), fun hp => absurd hf hp.ne'⟩
  · simpa [List.filterMap_cons, Item.text?] using h.accepted
  · simpa [List.filterMap_cons, Item.lost?] using h.lost
  · simpa [Item.count] using h.counted
  · intro n hn
    exact h.positive n (by simpa using hn)
  · show c.wire ++ _ = _ ++ written c queue
    rw [hnone, htake, h.wire]
    simp [written, Item.bytes]

theorem Inv.wrote_part {k : ℕ} (h : Inv eolOutString c (b :: queue) items)
    (hf : c.outputLinesFlushed = 0) (hk : k ≤ (c.block b).length) :
    Inv eolOutString { c with
      wire := c.wire ++ ((c.block b).buffer.drop (c.block b).start).take k
      outputLength := c.outputLength - k
      block := Function.update c.block b
        ⟨(c.block b).length - k, (c.block b).buffer, (c.block b).start + k⟩ }
      (b :: queue) items := by
  have hb : b ∉ queue := (List.nodup_cons.mp h.lists.nodup).1
  have hne : ∀ a ∈ queue, a ≠ b := fun a ha hab => hb (hab ▸ ha)
  have hrem := h.remaining b List.mem_cons_self
  refine ⟨⟨h.lists, ?_, ?_, ?_, h.lost, h.counted, h.positive, ?_⟩, h.live, ?_,
    fun hp => absurd hf hp.ne'⟩
  · simp only [List.map_cons, Function.update_self, map_update hne (fun t => (t.length : ℤ))]
    rw [h.length]
    simp only [List.map_cons, List.sum_cons]
    push_cast [hk]
    omega
  · intro a ha
    rcases List.mem_cons.mp ha with rfl | ha
    · simp only [Function.update_self]
      omega
    · simp only [Function.update_of_ne (hne a ha)]
      exact h.remaining a (List.mem_cons_of_mem _ ha)
  · simp only [List.map_cons, Function.update_self, map_update hne TextBlock.buffer]
    exact h.accepted
  · simp only [written, List.head?_cons, Option.elim_some, Function.update_self]
    rw [h.wire]
    simp [written, List.take_add]
  · intro a ha
    simp only [Function.update_of_ne (hne a ha)]
    exact h.unwritten a ha

theorem Inv.flush_block (h : Inv eolOutString c (b :: queue) items) :
    Inv eolOutString { c with
      outputLength := c.outputLength - (c.block b).length
      outputLinesFlushed := c.outputLinesFlushed + 1
      links := c.links.set .head (c.links.next b)
      lost := c.lost ++ [(c.block b).buffer] } queue
      (items ++ [.lost (c.block b).buffer (c.block b).start]) := by
  have hnone : written c queue = [] := written_nil h.unwritten
  refine ⟨⟨h.pop.1, h.pop.2, fun a ha => h.remaining a (List.mem_cons_of_mem _ ha), ?_, ?_, ?_,
    ?_, ?_⟩, fun a ha => h.live a (List.mem_cons_of_mem _ ha),
    fun a ha => h.unwritten a (List.mem_of_mem_tail ha), fun _ => h.unwritten⟩
  · simpa [List.filterMap_cons, Item.text?] using h.accepted
  · simpa [List.filterMap_cons, Item.lost?] using h.lost
  · have := h.counted
    simp only [List.length_append, List.length_singleton, List.map_append, List.map_cons,
      List.map_nil, List.sum_append, List.sum_cons, List.sum_nil, Item.count]
    omega
  · intro n hn
    exact h.positive n (by simpa using hn)
  · show c.wire = _ ++ written c queue
    rw [hnone, h.wire]
    simp [written, Item.bytes]

theorem Inv.wrote_notice (h : Inv eolOutString c queue items) (hf : 0 < c.outputLinesFlushed) :
    Inv eolOutString { c with
      wire := c.wire ++ lossNotice eolOutString c.outputLinesFlushed
      outputLinesFlushed := 0 } queue (items ++ [.notice c.outputLinesFlushed]) := by
  have hnone : written c queue = [] := written_nil (h.pending hf)
  refine ⟨⟨h.lists, h.length, h.remaining, ?_, ?_, ?_, ?_, ?_⟩, h.live, h.unwritten,
    fun hp => absurd hp (lt_irrefl 0)⟩
  · simpa [List.filterMap_cons, Item.text?] using h.accepted
  · simpa [List.filterMap_cons, Item.lost?] using h.lost
  · simpa [Item.count] using h.counted
  · intro n hn
    rcases List.mem_append.mp hn with hn | hn
    · exact h.positive n hn
    · cases List.mem_singleton.mp hn
      exact hf
  · show c.wire ++ _ = _ ++ written c queue
    rw [h.wire, hnone]
    simp [Item.bytes]

theorem Inv.append_block (buffer : Text) (h : Inv eolOutString c queue items)
    (ht : c.outputTail = final .head queue) :
    Inv eolOutString (appendBlock buffer c) (queue ++ [c.accepted.length]) items := by
  have hfree : c.accepted.length ∉ queue := fun hm => lt_irrefl _ (h.live _ hm)
  have hne : ∀ a ∈ queue, a ≠ c.accepted.length := fun a ha hab => hfree (hab ▸ ha)
  have hstart : ∀ a ∈ queue ++ [c.accepted.length], (∀ d ∈ queue, a = d → (c.block d).start = 0) →
      ((appendBlock buffer c).block a).start = 0 := by
    intro a ha hz
    rcases List.mem_append.mp ha with hq | hq
    · simp only [appendBlock, Function.update_of_ne (hne a hq)]
      exact hz a hq rfl
    · cases List.mem_singleton.mp hq
      simp [appendBlock]
  refine ⟨⟨?_, ?_, ?_, ?_, h.lost, h.counted, h.positive, ?_⟩, ?_, ?_, ?_⟩
  · simp only [appendBlock, ht]
    rw [set_comm _ _ _ (next_ne_final hfree)]
    exact h.lists.append hfree
  · simp only [appendBlock, List.map_append, List.sum_append, map_update hne (fun t => (t.length : ℤ)),
      List.map_cons, List.map_nil, Function.update_self, List.sum_singleton]
    rw [h.length]
  · intro a ha
    rcases List.mem_append.mp ha with hq | hq
    · simp only [appendBlock, Function.update_of_ne (hne a hq)]
      exact h.remaining a hq
    · cases List.mem_singleton.mp hq
      simp [appendBlock]
  · simp only [appendBlock, List.map_append, map_update hne TextBlock.buffer, List.map_cons, List.map_nil,
      Function.update_self]
    rw [h.accepted, List.append_assoc]
  · show c.wire = _
    rw [h.wire]
    cases queue with
    | nil => simp [written, appendBlock]
    | cons a queue => simp [written, appendBlock, Function.update_of_ne (hne a List.mem_cons_self)]
  · intro a ha
    simp only [appendBlock, List.length_append, List.length_singleton]
    rcases List.mem_append.mp ha with hq | hq
    · exact Nat.lt_succ_of_lt (h.live a hq)
    · cases List.mem_singleton.mp hq
      exact Nat.lt_succ_self _
  · intro a ha
    apply hstart a (List.mem_of_mem_tail ha)
    intro d hd had
    cases queue with
    | nil => cases hd
    | cons e queue =>
      subst had
      refine h.unwritten a ?_
      rw [List.cons_append, List.tail_cons] at ha
      rcases List.mem_append.mp ha with hq | hq
      · exact hq
      · cases List.mem_singleton.mp hq
        exact absurd hd hfree
  · intro hp a ha
    apply hstart a ha
    intro d hd _
    exact h.pending hp d hd

/-- The tail pointer is right, or the list has just become empty and it dangles. -/
def TailOk (c : Conn) (queue : List ℕ) : Prop :=
  queue = [] ∨ c.outputTail = final .head queue

theorem TailOk.pop {c' : Conn} (h : c.outputTail = final .head (b :: queue))
    (hc : c'.outputTail = c.outputTail) : TailOk c' queue := by
  cases queue with
  | nil => exact .inl rfl
  | cons a queue => exact .inr (hc.trans h)

theorem Inv.head_nil (h : Inv eolOutString c queue items) (hh : c.links.head = none) :
    queue = [] := by
  have := h.lists.head_eq
  rw [hh] at this
  exact List.head?_eq_none_iff.mp this.symm

theorem Inv.head_cons (h : Inv eolOutString c queue items) (hh : c.links.head = some b) :
    ∃ rest, queue = b :: rest := by
  have := h.lists.head_eq
  rw [hh] at this
  exact ⟨queue.tail, (List.cons_head?_tail this.symm).symm⟩

theorem Inv.reset (h : Inv eolOutString c [] items) :
    Inv eolOutString { c with outputTail := .head } [] items :=
  { h with }

theorem pushBlocks_inv (outcomes : List Outcome) (h : Inv eolOutString c queue items)
    (ht : TailOk c queue) (hf : c.outputLinesFlushed = 0) :
    ∃ queue' items', Inv eolOutString (pushBlocks outcomes c).2 queue' items' ∧
      (pushBlocks outcomes c).2.outputTail = final .head queue' := by
  induction outcomes generalizing c queue items with
  | nil =>
    cases hh : c.links.head with
    | none =>
      cases h.head_nil hh
      simp only [pushBlocks, hh]
      exact ⟨[], items, h.reset, rfl⟩
    | some b =>
      obtain ⟨rest, rfl⟩ := h.head_cons hh
      simp only [pushBlocks, hh]
      exact ⟨b :: rest, items, h, ht.resolve_left (by simp)⟩
  | cons o outcomes ih =>
    cases hh : c.links.head with
    | none =>
      cases h.head_nil hh
      simp only [pushBlocks, hh]
      exact ⟨[], items, h.reset, rfl⟩
    | some b =>
      obtain ⟨rest, rfl⟩ := h.head_cons hh
      have ht' := ht.resolve_left (by simp)
      cases o with
      | again =>
        simp only [pushBlocks, hh]
        exact ⟨b :: rest, items, h, ht'⟩
      | error =>
        simp only [pushBlocks, hh]
        exact ⟨b :: rest, items, h, ht'⟩
      | wrote n =>
        simp only [pushBlocks, hh]
        by_cases hc : min n (c.block b).length = (c.block b).length
        · rw [if_pos hc, hc]
          exact ih (h.wrote_block hf) (TailOk.pop ht' rfl) hf
        · rw [if_neg hc]
          exact ih (h.wrote_part hf (min_le_right _ _)) (.inr ht') hf

theorem lossNotice_pos (eolOutString : Text) (n : ℕ) : 0 < (lossNotice eolOutString n).length := by
  simp [lossNotice, ascii]

theorem pushOutput_inv {outcomes : List Outcome} (h : Inv eolOutString c queue items)
    (ht : c.outputTail = final .head queue) (hw : WholeNotice eolOutString c outcomes) :
    ∃ queue' items', Inv eolOutString (pushOutput eolOutString outcomes c).2 queue' items' ∧
      (pushOutput eolOutString outcomes c).2.outputTail = final .head queue' := by
  unfold pushOutput
  by_cases hf : 0 < c.outputLinesFlushed
  · rw [if_pos hf]
    cases outcomes with
    | nil => exact ⟨queue, items, h, ht⟩
    | cons o outcomes =>
      cases o with
      | again => exact ⟨queue, items, h, ht⟩
      | error => exact ⟨queue, items, h, ht⟩
      | wrote n =>
        rcases hw hf n outcomes rfl with rfl | hn
        · have hne := (lossNotice_pos eolOutString c.outputLinesFlushed).ne
          simp only [Nat.zero_min, if_neg hne, List.take_zero, List.append_nil]
          exact ⟨queue, items, h, ht⟩
        · simp only [min_eq_right hn, if_true, List.take_length]
          exact pushBlocks_inv outcomes (h.wrote_notice hf) (.inr ht) rfl
  · rw [if_neg hf]
    exact pushBlocks_inv outcomes h (.inr ht) (by omega)

theorem flushBlocks_inv (fuel : ℕ) (toFlush : ℤ) (h : Inv eolOutString c queue items)
    (ht : TailOk c queue) (hfuel : queue.length ≤ fuel) :
    ∃ c' queue' items', flushBlocks fuel toFlush c = some c' ∧
      Inv eolOutString c' queue' items' ∧ TailOk c' queue' := by
  induction fuel generalizing c queue items toFlush with
  | zero =>
    cases List.length_eq_zero_iff.mp (Nat.le_zero.mp hfuel)
    refine ⟨c, [], items, ?_, h, ht⟩
    have hh : c.links.head = none := h.lists.head_eq
    simp [flushBlocks, hh]
  | succ fuel ih =>
    unfold flushBlocks
    by_cases hpos : toFlush > 0
    · rw [if_pos hpos]
      cases hh : c.links.head with
      | none => exact ⟨c, queue, items, rfl, h, ht⟩
      | some b =>
        obtain ⟨rest, rfl⟩ := h.head_cons hh
        have ht' := ht.resolve_left (by simp)
        exact ih _ h.flush_block (TailOk.pop ht' rfl) (by simpa using hfuel)
    · rw [if_neg hpos]
      exact ⟨c, queue, items, rfl, h, ht⟩

theorem resetTail_inv (h : Inv eolOutString c queue items) (ht : TailOk c queue) :
    Inv eolOutString (resetTail c) queue items ∧ (resetTail c).outputTail = final .head queue := by
  unfold resetTail
  cases hh : c.links.head with
  | none =>
    cases h.head_nil hh
    exact ⟨h.reset, rfl⟩
  | some b =>
    obtain ⟨rest, rfl⟩ := h.head_cons hh
    exact ⟨h, ht.resolve_left (by simp)⟩

theorem Inv.length_le (h : Inv eolOutString c queue items) : queue.length ≤ c.accepted.length := by
  rw [h.accepted]
  simp

theorem enqueueOutput_inv {line : Text} {addEol : Bool} {outcomes : List Outcome}
    (flushOk : Bool) (h : Inv eolOutString c queue items) (ht : c.outputTail = final .head queue)
    (hw : overflows (withEol eolOutString line addEol) c → WholeNotice eolOutString c outcomes) :
    ∃ r queue' items', enqueueOutput eolOutString line addEol flushOk outcomes c = some r ∧
      Inv eolOutString r.2 queue' items' ∧ r.2.outputTail = final .head queue' := by
  unfold enqueueOutput
  by_cases ho : overflows (withEol eolOutString line addEol) c
  · simp only [if_pos ho]
    obtain ⟨queue1, items1, h1, ht1⟩ := pushOutput_inv h ht (hw ho)
    generalize (pushOutput eolOutString outcomes c).2 = c1 at *
    split
    · exact ⟨_, queue1, items1, rfl, h1, ht1⟩
    · obtain ⟨c2, queue2, items2, hc2, h2, ht2⟩ :=
        flushBlocks_inv c1.accepted.length
          (c1.outputLength + (withEol eolOutString line addEol).length - MAX_QUEUED_OUTPUT)
          h1 (.inr ht1) h1.length_le
      have h3 := resetTail_inv h2 ht2
      rw [hc2]
      exact ⟨_, _, items2, rfl, h3.1.append_block _ h3.2, by simp [appendBlock]⟩
  · simp only [if_neg ho]
    exact ⟨_, _, items, rfl, h.append_block _ ht, by simp [appendBlock]⟩

theorem step_inv {op : Op} (h : Inv eolOutString c queue items)
    (ht : c.outputTail = final .head queue) (hw : op.Whole eolOutString c) :
    ∃ c' queue' items', step eolOutString c op = some c' ∧ Inv eolOutString c' queue' items' ∧
      c'.outputTail = final .head queue' := by
  cases op with
  | push outcomes =>
    obtain ⟨queue', items', h', ht'⟩ := pushOutput_inv h ht hw
    exact ⟨_, queue', items', rfl, h', ht'⟩
  | enqueue line addEol flushOk outcomes =>
    obtain ⟨r, queue', items', hr, h', ht'⟩ :=
      enqueueOutput_inv flushOk h ht hw
    exact ⟨r.2, queue', items', by simp [step, hr], h', ht'⟩

theorem run_inv (ops : List Op) (h : Inv eolOutString c queue items)
    (ht : c.outputTail = final .head queue) (hw : WholeRun eolOutString ops c) :
    ∃ c' queue' items', run eolOutString ops c = some c' ∧ Inv eolOutString c' queue' items' ∧
      c'.outputTail = final .head queue' := by
  induction ops generalizing c queue items with
  | nil => exact ⟨c, queue, items, rfl, h, ht⟩
  | cons op ops ih =>
    obtain ⟨c1, queue1, items1, hs, h1, ht1⟩ := step_inv h ht hw.1
    obtain ⟨c', queue', items', hr, h', ht'⟩ := ih h1 ht1 (hw.2 c1 hs)
    exact ⟨c', queue', items', by simp [run, hs, hr], h', ht'⟩

theorem newConn_inv : Inv eolOutString newConn [] [] :=
  ⟨⟨⟨trivial, rfl, List.nodup_nil⟩, rfl, by simp, rfl, rfl, rfl, by simp, rfl⟩,
    by simp, by simp, by simp⟩

/-- What a push leaves as it is, and the length it never raises. -/
structure Pushed (c c' : Conn) : Prop where
  accepted : c'.accepted = c.accepted
  length : c'.outputLength ≤ c.outputLength

theorem pushBlocks_pushed (outcomes : List Outcome) (c : Conn) :
    Pushed c (pushBlocks outcomes c).2 := by
  induction outcomes generalizing c with
  | nil => cases hh : c.links.head <;> (simp only [pushBlocks, hh]; exact ⟨rfl, le_rfl⟩)
  | cons o outcomes ih =>
    cases hh : c.links.head with
    | none =>
      simp only [pushBlocks, hh]
      exact ⟨rfl, le_rfl⟩
    | some b =>
      cases o with
      | again =>
        simp only [pushBlocks, hh]
        exact ⟨rfl, le_rfl⟩
      | error =>
        simp only [pushBlocks, hh]
        exact ⟨rfl, le_rfl⟩
      | wrote n =>
        simp only [pushBlocks, hh]
        split
        · exact ⟨(ih _).accepted, (ih _).length.trans (Int.sub_le_self _ (by omega))⟩
        · exact ⟨(ih _).accepted, (ih _).length.trans (Int.sub_le_self _ (by omega))⟩

theorem pushOutput_pushed (outcomes : List Outcome) (c : Conn) :
    Pushed c (pushOutput eolOutString outcomes c).2 := by
  unfold pushOutput
  split
  · cases outcomes with
    | nil => exact ⟨rfl, le_rfl⟩
    | cons o outcomes =>
      cases o with
      | again => exact ⟨rfl, le_rfl⟩
      | error => exact ⟨rfl, le_rfl⟩
      | wrote n =>
        dsimp only
        split
        · exact ⟨(pushBlocks_pushed _ _).accepted, (pushBlocks_pushed _ _).length⟩
        · exact ⟨rfl, le_rfl⟩
  · exact pushBlocks_pushed outcomes c

/-- Blocks are discarded until there is room, or no block is left. -/
theorem flushBlocks_room {fuel : ℕ} {toFlush : ℤ} {c' : Conn}
    (h : flushBlocks fuel toFlush c = some c') : c'.accepted = c.accepted ∧
      (c'.links.head = none ∨ c'.outputLength ≤ c.outputLength-toFlush) := by
  induction fuel generalizing c toFlush with
  | zero =>
    unfold flushBlocks at h
    split at h
    · cases hh : c.links.head with
      | none =>
        simp only [hh, Option.some.injEq] at h
        exact h ▸ ⟨rfl, .inl hh⟩
      | some b => simp [hh] at h
    · cases h
      exact ⟨rfl, .inr (by omega)⟩
  | succ fuel ih =>
    unfold flushBlocks at h
    split at h
    · cases hh : c.links.head with
      | none =>
        simp only [hh, Option.some.injEq] at h
        exact h ▸ ⟨rfl, .inl hh⟩
      | some b =>
        simp only [hh] at h
        obtain ⟨ha, hl⟩ := ih h
        exact ⟨ha, hl.imp id fun hl => by dsimp only at hl; omega⟩
    · cases h
      exact ⟨rfl, .inr (by omega)⟩

theorem resetTail_accepted (c : Conn) : (resetTail c).accepted = c.accepted := by
  unfold resetTail
  split <;> rfl

theorem enqueueOutput_accepted {line : Text} {addEol flushOk : Bool} {outcomes : List Outcome}
    {r : Bool × Conn}
    (h : enqueueOutput eolOutString line addEol flushOk outcomes c = some r) :
    r.2.accepted = c.accepted ++ if r.1 then [withEol eolOutString line addEol] else [] := by
  unfold enqueueOutput at h
  dsimp only at h
  split at h
  · have hp := (@pushOutput_pushed eolOutString outcomes c).accepted
    split at h
    · cases h
      rw [hp]
      exact (List.append_nil _).symm
    · obtain ⟨c', hc', rfl⟩ := Option.map_eq_some_iff.mp h
      show (resetTail c').accepted ++ _ = _
      rw [resetTail_accepted, (flushBlocks_room hc').1, hp]
      rfl
  · cases h
    rfl

/-- The lines recorded as accepted are those whose `enqueueOutput` returned 1. -/
theorem run_accepted {ops : List Op} {c' : Conn} (h : run eolOutString ops c = some c') :
    c'.accepted = c.accepted ++ queuedLines eolOutString ops c := by
  induction ops generalizing c with
  | nil =>
    cases h
    exact (List.append_nil _).symm
  | cons op ops ih =>
    obtain ⟨c1, hs, hr⟩ := Option.bind_eq_some_iff.mp h
    rw [ih hr]
    cases op with
    | push outcomes =>
      cases hs
      rw [(pushOutput_pushed outcomes c).accepted, queuedLines]
    | enqueue line addEol flushOk outcomes =>
      obtain ⟨r, he, rfl⟩ := Option.map_eq_some_iff.mp hs
      rw [enqueueOutput_accepted he, queuedLines, he, List.append_assoc]
      rfl

/-- In every run none of whose writes of a notice stops short, the queue and what the connection
has received are right in every state reached, and the lines that count as accepted are those whose
`enqueueOutput` returned 1. -/
theorem intact_of_whole_run (eolOutString : Text) (ops : List Op)
    (h : WholeRun eolOutString ops newConn) :
    ∃ c, run eolOutString ops newConn = some c ∧ Intact eolOutString c ∧
      c.accepted = queuedLines eolOutString ops newConn := by
  obtain ⟨c, queue, items, hr, hi, ht⟩ := run_inv ops newConn_inv rfl h
  exact ⟨c, hr, ⟨queue, items, written c queue, hi.toHistory, ht, .inl rfl⟩, run_accepted hr⟩

theorem enqueueOutput_short {line : Text} {addEol flushOk : Bool} {outcomes : List Outcome}
    {r : Bool × Conn} (h : Inv eolOutString c queue items)
    (ht : c.outputTail = final .head queue)
    (hw : overflows (withEol eolOutString line addEol) c → WholeNotice eolOutString c outcomes)
    (hc : c.outputLength < 2^30) (hs : (withEol eolOutString line addEol).length < 2^30)
    (he : enqueueOutput eolOutString line addEol flushOk outcomes c = some r) :
    r.2.outputLength < 2^30 := by
  unfold enqueueOutput at he
  dsimp only at he
  split at he
  · rename_i ho
    have hp := (@pushOutput_pushed eolOutString outcomes c).length
    obtain ⟨queue1, items1, h1, ht1⟩ := pushOutput_inv h ht (hw ho)
    split at he
    · cases he
      exact lt_of_le_of_lt hp hc
    · obtain ⟨c2, hc2, rfl⟩ := Option.map_eq_some_iff.mp he
      obtain ⟨c3, queue2, items2, hc3, h2, -⟩ := flushBlocks_inv _ _ h1 (.inr ht1) h1.length_le
      cases hc2.symm.trans hc3
      have hl : (resetTail c2).outputLength = c2.outputLength := by
        unfold resetTail
        split <;> rfl
      show (resetTail c2).outputLength+_ < _
      rw [hl]
      rcases (flushBlocks_room hc2).2 with hn | hroom
      · cases h2.head_nil hn
        rw [h2.length]
        simpa using hs
      · rw [MAX_QUEUED_OUTPUT] at hroom
        omega
  · rename_i ho
    cases he
    show c.outputLength+_ < _
    rw [overflows, MAX_QUEUED_OUTPUT] at ho
    omega

theorem run_short (ops : List Op) (h : Inv eolOutString c queue items)
    (ht : c.outputTail = final .head queue) (hw : WholeRun eolOutString ops c)
    (hs : ∀ op ∈ ops, op.Short eolOutString) (hc : c.outputLength < 2^30) {c' : Conn}
    (hr : run eolOutString ops c = some c') : c'.outputLength < 2^30 := by
  induction ops generalizing c queue items with
  | nil =>
    cases hr
    exact hc
  | cons op ops ih =>
    obtain ⟨c1, hstep, hr⟩ := Option.bind_eq_some_iff.mp hr
    obtain ⟨c2, queue1, items1, hstep2, h1, ht1⟩ := step_inv h ht hw.1
    cases hstep.symm.trans hstep2
    refine ih h1 ht1 (hw.2 c1 hstep) (fun op hop => hs op (.tail _ hop)) ?_ hr
    have hop := hs op (.head _)
    cases op with
    | push outcomes =>
      cases hstep
      exact lt_of_le_of_lt (pushOutput_pushed outcomes c).length hc
    | enqueue line addEol flushOk outcomes =>
      obtain ⟨r, he, rfl⟩ := Option.map_eq_some_iff.mp hstep
      exact enqueueOutput_short h ht hw.1 hc hop he

theorem queuedLines_length (ops : List Op) (c : Conn) :
    (queuedLines eolOutString ops c).length ≤ ops.length := by
  induction ops generalizing c with
  | nil => rfl
  | cons op ops ih =>
    cases op with
    | push outcomes => exact (ih _).trans (Nat.le_succ _)
    | enqueue line addEol flushOk outcomes =>
      rw [queuedLines]
      cases enqueueOutput eolOutString line addEol flushOk outcomes c with
      | none => exact Nat.zero_le _
      | some r =>
        have := ih r.2
        rw [Option.elim_some, List.length_append, List.length_cons]
        split <;> simp <;> omega

theorem lost_length_le (items : List Item) :
    (items.filterMap Item.lost?).length ≤ (items.filterMap Item.text?).length := by
  induction items with
  | nil => rfl
  | cons i items ih =>
    cases i with
    | sent text => exact Nat.le_succ_of_le ih
    | lost text k => exact Nat.succ_le_succ ih
    | notice n => exact ih

/-- In such a run of fewer than `2^31` steps, with lines of fewer than `2^30` bytes, the counters
are what an `int` holds, and so is every sum that `overflows` compares. -/
theorem counters_fit {ops : List Op} (h : WholeRun eolOutString ops newConn)
    (hs : ∀ op ∈ ops, op.Short eolOutString) (hn : ops.length < 2^31)
    (hr : run eolOutString ops newConn = some c) :
    0 ≤ c.outputLength ∧ c.outputLength < 2^30 ∧ c.outputLinesFlushed < 2^31 := by
  obtain ⟨c1, queue, items, hr1, hi, -⟩ := run_inv ops newConn_inv rfl h
  cases hr.symm.trans hr1
  refine ⟨?_, run_short ops newConn_inv rfl h hs (by decide) hr, ?_⟩
  · rw [hi.length]
    exact List.sum_nonneg fun x hx => by
      obtain ⟨b, -, rfl⟩ := List.mem_map.mp hx
      exact Int.natCast_nonneg _
  · have hcount := hi.counted
    have hlost := lost_length_le items
    have hall := @queuedLines_length eolOutString ops newConn
    have haccepted := congrArg List.length (run_accepted hr)
    have htexts := congrArg List.length hi.accepted
    rw [List.length_append] at haccepted htexts
    rw [← hi.lost] at hlost
    have h0 : newConn.accepted.length = 0 := rfl
    omega

def Item.noticed (eolOutString : Text) (i : Item) : ℕ :=
  match i with
  | .notice n => (lossNotice eolOutString n).countP (· ≠ 0)
  | .sent _ => 0
  | .lost _ _ => 0

/-- The bytes of the items other than zero, when only zeros were ever lost. -/
theorem countP_items {eolOutString : Text} {items : List Item}
    (h : ∀ text, text ∈ items.filterMap Item.lost? → ∀ x ∈ text, x = 0) :
    (items.flatMap (Item.bytes eolOutString)).countP (· ≠ 0) =
      ((items.filterMap Item.text?).map (List.countP (· ≠ 0))).sum +
        (items.map (Item.noticed eolOutString)).sum := by
  induction items with
  | nil => rfl
  | cons i items ih =>
    have ih' := ih fun text ht => h text (by
      rw [List.filterMap_cons]
      split
      · exact ht
      · exact List.mem_cons_of_mem _ ht)
    rw [List.flatMap_cons, List.countP_append, ih', List.map_cons, List.sum_cons]
    cases i with
    | sent text =>
      rw [show (Item.sent text :: items).filterMap Item.text? =
        text :: items.filterMap Item.text? from rfl]
      simp only [Item.bytes, Item.noticed, List.map_cons, List.sum_cons]
      omega
    | lost text k =>
      have hz : ∀ x ∈ text, x = 0 := h text (by simp [Item.lost?])
      have h0 : text.countP (· ≠ 0) = 0 := by simpa [List.countP_eq_zero] using hz
      have hk : (text.take k).countP (· ≠ 0) = 0 := by
        simpa [List.countP_eq_zero] using fun x hx => hz x (List.mem_of_mem_take hx)
      rw [show (Item.lost text k :: items).filterMap Item.text? =
        text :: items.filterMap Item.text? from rfl]
      simp only [Item.bytes, Item.noticed, List.map_cons, List.sum_cons, h0, hk]
      omega
    | notice n =>
      rw [List.filterMap_cons_none rfl]
      simp only [Item.bytes, Item.noticed]
      omega

/-- Notices that own up to one line are one notice. -/
theorem noticed_one {eolOutString : Text} {items : List Item}
    (hpos : ∀ n, .notice n ∈ items → 0 < n) (k : ℕ) (hk : k ≤ 1)
    (h : (items.map Item.count).sum = k) :
    (items.map (Item.noticed eolOutString)).sum =
      k * (lossNotice eolOutString 1).countP (· ≠ 0) := by
  induction items generalizing k with
  | nil =>
    cases h
    simp
  | cons i items ih =>
    have ih' := ih fun n hn => hpos n (List.mem_cons_of_mem _ hn)
    rw [List.map_cons, List.sum_cons] at *
    cases i with
    | sent text => simpa [Item.count, Item.noticed] using ih' k hk (by simpa [Item.count] using h)
    | lost text m => simpa [Item.count, Item.noticed] using ih' k hk (by simpa [Item.count] using h)
    | notice n =>
      have hn := hpos n List.mem_cons_self
      simp only [Item.count] at h
      have h1 : n = 1 := by omega
      have h2 : k = 1 := by omega
      subst h1 h2
      rw [ih' 0 (by omega) (by omega)]
      simp [Item.noticed]

def crlf : Text := [13, 10]

/-- A full queue, and one line more. -/
def overflowOps (z : Text) : List Op := [.enqueue z false true [], .enqueue [98] false true []]

/-- The queue after the overflow: the first line discarded, the second one waiting. -/
structure Overflowed (z : Text) (c : Conn) : Prop where
  flushed : c.outputLinesFlushed = 1
  head : c.links.head = some 1
  next : c.links.next 1 = none
  block : c.block 1 = ⟨1, [98], 0⟩
  lost : c.lost = [z]
  accepted : c.accepted = [z, [98]]

theorem overflow_first (z : Text) :
    enqueueOutput crlf z false true [] newConn = some (true, appendBlock z newConn) := by
  simp [enqueueOutput, overflows, newConn, withEol]

theorem overflow_second (z : Text) (hz : z.length = 65536) :
    ∃ c, enqueueOutput crlf [98] false true [] (appendBlock z newConn) = some (true, c) ∧
      Overflowed z c ∧ c.wire = [] := by
  simp [enqueueOutput, overflows, appendBlock, newConn, withEol, pushOutput, pushBlocks, hz,
    MAX_QUEUED_OUTPUT, flushBlocks, Links.set, resetTail]
  exact ⟨rfl, rfl, rfl, rfl, rfl, rfl⟩

theorem overflow_whole {z : Text} (hz : z.length = 65536) :
    WholeRun crlf (overflowOps z ++ [.push [.wrote 100, .wrote 1]]) newConn := by
  obtain ⟨c, hc, ho, -⟩ := overflow_second z hz
  have h1 : step crlf newConn (.enqueue z false true []) = some (appendBlock z newConn) := by
    simp [step, overflow_first]
  have h2 : step crlf (appendBlock z newConn) (.enqueue [98] false true []) = some c := by
    simp [step, hc]
  refine ⟨fun h => absurd rfl h.1, fun c1 hc1 => ?_⟩
  rw [h1] at hc1
  cases hc1
  refine ⟨fun _ hp => absurd hp (lt_irrefl 0), fun c2 hc2 => ?_⟩
  rw [h2] at hc2
  cases hc2
  refine ⟨fun _ n rest hn => .inr ?_, fun _ _ => trivial⟩
  cases hn
  rw [ho.flushed]
  decide

theorem intact_of_whole_run_overflow :
    WholeRun crlf (overflowOps (List.replicate 65536 0) ++ [.push [.wrote 100, .wrote 1]])
        newConn ∧
      ∃ c, run crlf (overflowOps (List.replicate 65536 0) ++ [.push [.wrote 100, .wrote 1]])
        newConn = some c ∧ Intact crlf c ∧ c.accepted =
          queuedLines crlf (overflowOps (List.replicate 65536 0) ++ [.push [.wrote 100, .wrote 1]])
            newConn :=
  ⟨overflow_whole List.length_replicate,
    intact_of_whole_run crlf _ (overflow_whole List.length_replicate)⟩

/-- One more push, whose first write is the notice. -/
theorem Overflowed.push {z : Text} {c : Conn} (h : Overflowed z c) (n m : ℕ) :
    ∃ c', (pushOutput crlf [.wrote n, .wrote (m + 1)] c).2 = c' ∧
      if n < (lossNotice crlf 1).length then
        Overflowed z c' ∧ c'.wire = c.wire ++ (lossNotice crlf 1).take n
      else c'.outputLinesFlushed = 0 ∧ c'.links.head = none ∧ c'.lost = [z] ∧
        c'.accepted = [z, [98]] ∧ c'.wire = c.wire ++ lossNotice crlf 1 ++ [98] := by
  refine ⟨_, rfl, ?_⟩
  have hmin : min (m + 1) 1 = 1 := by omega
  by_cases hn : n < (lossNotice crlf 1).length
  · rw [if_pos hn]
    simp only [pushOutput, h.flushed, Nat.zero_lt_one, if_true, min_eq_left hn.le, if_neg hn.ne]
    exact ⟨⟨rfl, h.head, h.next, h.block, h.lost, h.accepted⟩, trivial⟩
  · rw [if_neg hn]
    simp only [pushOutput, h.flushed, Nat.zero_lt_one, if_true, min_eq_right (not_lt.mp hn),
      pushBlocks, h.head, h.block, hmin, Links.set, h.next]
    simp [h.lost, h.accepted]

theorem Overflowed.broken {z : Text} {c : Conn} (hz : ∀ x ∈ z, x = 0)
    (hf : c.outputLinesFlushed = 0) (hh : c.links.head = none) (hl : c.lost = [z])
    (ha : c.accepted = [z, [98]])
    (hw : c.wire = (lossNotice crlf 1).take 10 ++ lossNotice crlf 1 ++ [98]) :
    ¬ Intact crlf c := by
  rintro ⟨queue, items, part, h, -, hp⟩
  have hq : queue = [] := by
    have := h.lists.head_eq
    rw [hh] at this
    exact List.head?_eq_none_iff.mp this.symm
  subst hq
  have hp' : part = [] := by
    rcases hp with hp | ⟨hp, -⟩
    · exact hp
    · omega
  have hcount := h.counted
  rw [hl, hf] at hcount
  have hwire := congrArg (List.countP (· ≠ 0)) h.wire
  have hlost : ∀ text, text ∈ items.filterMap Item.lost? → ∀ x ∈ text, x = 0 := by
    rw [← h.lost, hl]
    intro text ht
    rw [List.mem_singleton.mp ht]
    exact hz
  have htexts : items.filterMap Item.text? = [z, [98]] := by
    have := h.accepted
    rw [ha] at this
    simpa using this.symm
  have hz0 : z.countP (· ≠ 0) = 0 := by simpa [List.countP_eq_zero] using hz
  rw [hp', List.append_nil, countP_items hlost, htexts,
    noticed_one h.positive 1 le_rfl (by simpa using hcount.symm), hw, List.countP_append,
    List.countP_append] at hwire
  simp only [List.map_cons, List.map_nil, List.sum_cons, List.sum_nil, hz0] at hwire
  have h10 : ((lossNotice crlf 1).take 10).countP (· ≠ 0) = 10 := by decide
  rw [h10] at hwire
  simp only [ne_eq, decide_not, List.countP_cons, List.countP_nil] at hwire
  simp at hwire
  omega

theorem notice_repeats {z : Text} (hz : ∀ x ∈ z, x = 0) (hlen : z.length = 65536) :
    ∃ c, run crlf (overflowOps z ++ [.push [.wrote 10, .wrote 1], .push [.wrote 100, .wrote 1]])
      newConn = some c ∧ ¬ Intact crlf c := by
  obtain ⟨c, hc, ho, hw⟩ := overflow_second z hlen
  obtain ⟨c1, hc1, h1⟩ := ho.push 10 0
  rw [if_pos (by decide)] at h1
  obtain ⟨c2, hc2, h2⟩ := h1.1.push 100 0
  rw [if_neg (by decide)] at h2
  refine ⟨c2, ?_, Overflowed.broken hz h2.1 h2.2.1 h2.2.2.1 h2.2.2.2.1 ?_⟩
  · simp [overflowOps, run, step, overflow_first, hc, hc1, hc2]
  · rw [h2.2.2.2.2, h1.2, hw, List.nil_append]

/-- A notice of which ten bytes are written, and then all of them. -/
def brokenOps : List Op :=
  overflowOps (List.replicate 65536 0) ++
    [.push [.wrote 10, .wrote 1], .push [.wrote 100, .wrote 1]]

theorem repeated_notice :
    ∃ c, run crlf brokenOps newConn = some c ∧ ¬ Intact crlf c :=
  notice_repeats (fun _ hx => List.eq_of_mem_replicate hx) List.length_replicate

end LambdaMoo.Output
