import LambdaMoo.TaskCounts

/-!
# The operations and the counts

What each operation on the task queues does to the counts: the ones on input
and connections leave them alone, and every other that adds, moves or removes a
background task keeps the count of its queue exact.
-/

set_option autoImplicit false

namespace LambdaMoo.Tasks
open LambdaMoo.Input (How)

namespace Server

variable {s s' : Server} {q : ℕ}

/-- A change of one queue's input or connection, with the queue woken up or not. -/
theorem Shape.same_notice (h : Shape s) (q : ℕ) {f : TQueue → TQueue} {c : Prop} [Decidable c]
    (hu : ∀ tq, (f tq).usage = tq.usage) (hp : ∀ tq, (f tq).player = tq.player)
    (hb : ∀ tq, (f tq).bg = tq.bg) (hn : ∀ tq, (f tq).numBgTasks = tq.numBgTasks)
    (hc : ∀ tq, (f tq).connected = true → tq.connected = true)
    (hs : (if c then (s.modify q f).ensureUsage q else .ok (s.modify q f)) = .ok s') :
    SameBooks s s' := by
  have hm := SameBooks.modify s q hp hb hn hc
  split at hs
  · exact hm.trans ((h.modify q hu).ensureUsage hs).same
  · cases hs
    exact hm

theorem freeTaskQueue_same (h : Shape s) (hs : s.freeTaskQueue q = .ok s') : SameBooks s s' :=
  h.same_notice q (fun _ => by rfl) (fun _ => by rfl) (fun _ => by rfl) (fun _ => by rfl)
    (fun _ hc => by cases hc) hs

theorem setFlushCommand_same (q : ℕ) (cmd : Str) (s : Server) :
    SameBooks s (s.setFlushCommand q cmd) :=
  SameBooks.modify s q (fun _ => by rfl) (fun _ => by rfl) (fun _ => by rfl) (fun _ => by exact fun hc => hc)

theorem setHoldInput_same (h : Shape s) {value : Bool} (hs : s.setHoldInput q value = .ok s') :
    SameBooks s s' :=
  h.same_notice q (fun _ => by rfl) (fun _ => by rfl) (fun _ => by rfl) (fun _ => by rfl)
    (fun _ => by exact fun hc => hc) hs

theorem setDisableOob_same (h : Shape s) {value : Bool} (hs : s.setDisableOob q value = .ok s') :
    SameBooks s s' :=
  h.same_notice q (fun _ => by rfl) (fun _ => by rfl) (fun _ => by rfl) (fun _ => by rfl)
    (fun _ => by exact fun hc => hc) hs

theorem enqueueInputTask_same (h : Shape s) {line : Str} {atFront binary : Bool}
    (hs : s.enqueueInputTask q line atFront binary = .ok s') : SameBooks s s' :=
  h.same_notice q (fun _ => by rfl) (fun _ => by rfl) (fun _ => by rfl) (fun _ => by rfl)
    (fun _ => by exact fun hc => hc) hs

theorem flushInput_same (q : ℕ) (s : Server) : SameBooks s (s.flushInput q) :=
  SameBooks.modify s q (fun _ => by rfl) (fun _ => by rfl) (fun _ => by rfl) (fun _ => by exact fun hc => hc)

theorem newInputTask_same (h : Shape s) {line : Str} {binary : Bool}
    (hs : s.newInputTask q line binary = .ok s') : SameBooks s s' := by
  unfold newInputTask at hs
  split at hs
  · cases hs
    exact flushInput_same q s
  · exact enqueueInputTask_same h hs

theorem dequeueInputTask_same (how : How) (q : ℕ) (s : Server) :
    SameBooks s (s.dequeueInputTask how q).2 := by
  unfold dequeueInputTask
  dsimp only
  split
  · exact SameBooks.rfl
  · dsimp only
    exact SameBooks.modify s q (fun _ => by rfl) (fun _ => by rfl) (fun _ => by rfl) (fun _ => by exact fun hc => hc)

theorem readInputNow_same (conn : ℤ) (s : Server) : SameBooks s (s.readInputNow conn) := by
  unfold readInputNow
  split
  · exact SameBooks.rfl
  · split
    · exact SameBooks.rfl
    · exact dequeueInputTask_same .inband _ s

theorem makeReadingTask_same (h : Shape s) {player id : ℤ}
    (hs : s.makeReadingTask player id = .ok s') : SameBooks s s' := by
  unfold makeReadingTask at hs
  split at hs
  · cases hs
    exact SameBooks.rfl
  · split at hs
    · cases hs
      exact SameBooks.rfl
    · exact h.same_notice _ (fun _ => by rfl) (fun _ => by rfl) (fun _ => by rfl)
        (fun _ => by rfl) (fun _ => by exact fun hc => hc) hs

theorem killReading_same (q : ℕ) (s : Server) : SameBooks s (s.killReading q) :=
  SameBooks.modify s q (fun _ => by rfl) (fun _ => by rfl) (fun _ => by rfl) (fun _ => by exact fun hc => hc)

theorem Counted.connect (h : Counted s) (hq : (s.queue q).player ≠ nobody) :
    Counted (s.modify q fun tq => {tq with connected := true}) := by
  have hp := modify_field (f := fun tq => {tq with connected := true}) TQueue.player
    (fun _ => by rfl) q
  have hb := modify_field (f := fun tq => {tq with connected := true}) TQueue.bg
    (fun _ => by rfl) q
  have hn := modify_field (f := fun tq => {tq with connected := true}) TQueue.numBgTasks
    (fun _ => by rfl) q
  refine ⟨?_, ?_, ?_, ?_, ?_, ?_, h.next⟩
  · intro p hpl
    rw [hn, hb, hp]
    exact h.count p hpl
  · intro p hpl
    rw [hb, hp]
    exact h.owned p hpl
  · intro t ht
    obtain ⟨p, hpl, hpt⟩ := h.home t ht
    exact ⟨p, hpl, by rw [hp]; exact hpt⟩
  · intro p hpl r hrl hne he
    rw [hp, hp] at he
    obtain ⟨hnob, hno⟩ := h.unique p hpl r hrl hne he
    refine ⟨by rw [hp]; exact hnob, hno.waiting, ?_⟩
    intro x hx hxn
    rw [hp] at hxn
    rw [hb]
    exact hno.bg x hx hxn
  · intro p hpl hc
    rw [hp]
    by_cases hpq : p = q
    · exact hpq ▸ hq
    · rw [modify_of_ne _ s hpq] at hc
      exact h.somebody p hpl hc
  · intro p hpp
    rw [hp]
    exact h.login p hpp

/-- The connections get the negative players below `nobody`. -/
theorem newConnection_counted (h : Counted s) (hs : Shape s) (flush : Option Str) :
    Counted (s.newConnection flush) := by
  have hs1 : Shape {s with nextUnconnected := s.nextUnconnected-1} :=
    ⟨hs.nodup, hs.live, hs.single, hs.usage, hs.fresh, hs.head⟩
  have h1 : Counted {s with nextUnconnected := s.nextUnconnected-1} := by
    refine ⟨h.count, h.owned, h.home, ?_, h.somebody, h.login, ?_⟩
    · intro q hq p hp hne he
      obtain ⟨hn, hno⟩ := h.unique q hq p hp hne he
      exact ⟨hn, hno.waiting, hno.bg⟩
    · have := h.next
      show s.nextUnconnected-1 < nobody
      omega
  have ho := hs1.obtain flush s.nextUnconnected
  apply (h1.obtain hs1 flush s.nextUnconnected).connect
  rw [ho.whose]
  exact h.next.ne

theorem forceInput_counted (h : Counted s) (hs : Shape s) {flush : Option Str} {conn : ℤ}
    {line : Str} {atFront : Bool} (hr : s.forceInput flush conn line atFront = .ok s') :
    Counted s' :=
  (h.obtain hs flush conn).same (enqueueInputTask_same (hs.obtain flush conn).shape hr)

theorem bfFlushInput_counted (h : Counted s) (hs : Shape s) (flush : Option Str) (conn : ℤ) :
    Counted (s.bfFlushInput flush conn) :=
  (h.obtain hs flush conn).same (flushInput_same _ _)

theorem tasksOf_perm {ts us : List Task} (h : ts.Perm us) (player : ℤ) :
    tasksOf ts player = tasksOf us player := h.countP_eq _

theorem tasksOf_cons_self {t : Task} {ts : List Task} {player : ℤ} (h : t.progr = player) :
    tasksOf (t::ts) player = tasksOf ts player+1 := by
  simp [tasksOf, h]

theorem tasksOf_cons_ne {t : Task} {ts : List Task} {player : ℤ} (h : t.progr ≠ player) :
    tasksOf (t::ts) player = tasksOf ts player := by
  simp [tasksOf, h]

theorem insertWaiting_perm (t : Task) (ts : List Task) : (insertWaiting t ts).Perm (t::ts) := by
  unfold insertWaiting
  exact List.perm_middle.trans (by rw [List.takeWhile_append_dropWhile])

/-- At most one queue is without a player. -/
def OneNobody (s : Server) : Prop :=
  ∀ q ∈ s.live, ∀ p ∈ s.live, (s.queue q).player = nobody → (s.queue p).player = nobody → q = p

/-- The queue that was found or made has its player to itself. -/
theorem Obtained.alone {flush : Option Str} {player : ℤ} {r : ℕ × Server}
    (ho : Obtained flush player s r) (hs : Shape s) (h : Counted s)
    (hone : player = nobody → OneNobody s) :
    ∀ p ∈ r.2.live, (r.2.queue p).player = player → p = r.1 := by
  intro p hp he
  rcases ho.found with ⟨hf, hr⟩ | ⟨hf, hr, hlive, -, -⟩
  · rw [hr] at hp he
    have hfound := hs.find hf
    by_contra hne
    obtain ⟨hn, -⟩ := h.unique p hp r.1 hfound.1 hne (he.trans hfound.2.symm)
    have hpn := he.symm.trans hn
    exact hne (hone hpn p hp r.1 hfound.1 hn (hfound.2.trans hpn))
  · rw [hlive] at hp
    rcases List.mem_cons.mp hp with hpf | hp
    · rw [hpf, hr]
    · rw [ho.queue p hp] at he
      exact absurd he (hs.find_none hf p hp)

theorem enqueueWaiting_counted (h : Counted s) (hs : Shape s) (flush : Option Str) {t : Task}
    (hone : t.progr = nobody → OneNobody s) : Counted (s.enqueueWaiting flush t) := by
  have ho := hs.obtain flush t.progr
  have h1 := h.obtain hs flush t.progr
  have hp := ho.whose
  apply h1.change ho.mem
  · exact fun _ => by rfl
  · exact fun _ => by rfl
  · intro y hy
    rw [hp] at hy
    rw [tasksOf_perm (insertWaiting_perm _ _), tasksOf_cons_ne hy.symm]
    rfl
  · have hc := h1.count _ ho.mem
    rw [hp] at hc ⊢
    rw [tasksOf_perm (insertWaiting_perm _ _), tasksOf_cons_self rfl]
    show _+1 = _
    rw [hc, modify_waiting]
    push_cast
    omega
  · exact h1.owned _ ho.mem
  · rw [hp]
    exact ho.alone hs h hone

theorem perm_eraseP {f : Task → Bool} {t : Task} {ts : List Task} (h : ts.find? f = some t) :
    ts.Perm (t::ts.eraseP f) := by
  obtain ⟨ht, as, bs, rfl, has⟩ := List.find?_eq_some_iff_append.mp h
  have he : (as ++ t::bs).eraseP f = as ++ bs := by
    rw [List.eraseP_append_right _ (fun a ha => by simpa using has a ha),
      List.eraseP_cons_of_pos ht]
  rw [he]
  exact List.perm_middle

/-- A waiting task leaves, and the count of its queue with it. -/
theorem Counted.drop (h : Counted s) {t : Task} {ts : List Task}
    (hperm : s.waiting.Perm (t::ts)) (hq : q ∈ s.live) (hp : (s.queue q).player = t.progr) :
    Counted {s.modify q decrement with waiting := ts} := by
  have hmem : t ∈ s.waiting := hperm.mem_iff.mpr List.mem_cons_self
  apply h.change hq
  · exact fun _ => by rfl
  · exact fun _ => by rfl
  · intro y hy
    rw [hp] at hy
    rw [tasksOf_perm hperm, tasksOf_cons_ne hy.symm]
  · have hc := h.count q hq
    rw [tasksOf_perm hperm, tasksOf_cons_self hp.symm] at hc
    show (s.queue q).numBgTasks-1 = _
    rw [hc]
    push_cast
    show _ = ((s.queue q).bg.length:ℤ)+_
    omega
  · exact h.owned q hq
  · exact h.alone hq (.inr ⟨t, hmem, hp.symm⟩)

/-- A waiting task becomes ready: the count stays. -/
theorem Counted.ready (h : Counted s) {t u : Task} {ts : List Task}
    (hperm : s.waiting.Perm (t::ts)) (hq : q ∈ s.live) (hp : (s.queue q).player = t.progr)
    (hu : u.progr = t.progr) : Counted (({s with waiting := ts}).enqueueBgTask q u) := by
  have hmem : t ∈ s.waiting := hperm.mem_iff.mpr List.mem_cons_self
  apply h.change (f := fun tq => {tq with bg := tq.bg ++ [u]}) hq
  · exact fun _ => by rfl
  · exact fun _ => by rfl
  · intro y hy
    rw [hp] at hy
    rw [tasksOf_perm hperm, tasksOf_cons_ne hy.symm]
  · have hc := h.count q hq
    rw [tasksOf_perm hperm, tasksOf_cons_self hp.symm] at hc
    show (s.queue q).numBgTasks = ((s.queue q).bg ++ [u]).length+_
    rw [hc, List.length_append, List.length_singleton]
    push_cast
    omega
  · intro v hv
    rcases List.mem_append.mp hv with hv | hv
    · exact h.owned q hq v hv
    · rw [List.mem_singleton.mp hv]
      exact hu.trans hp.symm
  · exact h.alone hq (.inr ⟨t, hmem, hp.symm⟩)

/-- A ready task leaves its queue. -/
theorem Counted.leave (h : Counted s) (hq : q ∈ s.live) {t : Task} {ts : List Task}
    (hperm : (s.queue q).bg.Perm (t::ts)) {f : TQueue → TQueue}
    (hf : f (s.queue q) = decrement {s.queue q with bg := ts})
    (hplayer : ∀ tq, (f tq).player = tq.player)
    (hconn : ∀ tq, (f tq).connected = tq.connected) : Counted (s.modify q f) := by
  have hne : (s.queue q).bg ≠ [] := by
    intro he
    rw [he] at hperm
    exact absurd hperm.symm.eq_nil (by simp)
  show Counted {s.modify q f with waiting := s.waiting}
  refine h.change hq hplayer hconn (fun _ _ => rfl) ?_ ?_ (h.alone hq (.inl hne))
  · have hc := h.count q hq
    rw [hperm.length_eq] at hc
    rw [hf]
    show (s.queue q).numBgTasks-1 = (ts.length:ℤ)+_
    rw [hc]
    simp
    omega
  · intro u hu
    rw [hf] at hu
    exact h.owned q hq u (hperm.mem_iff.mpr (List.mem_cons_of_mem _ hu))

theorem killWaiting_counted (h : Counted s) (hs : Shape s) {t : Task} {id : ℤ}
    (hf : s.waiting.find? (fun t => t.id = id) = some t) : Counted (s.killWaiting t) := by
  have hid : t.id = id := by simpa using List.find?_some hf
  subst hid
  have hmem := List.mem_of_find?_eq_some hf
  unfold killWaiting
  dsimp only
  split
  · next q hq =>
    have hfound : q ∈ s.live ∧ (s.queue q).player = t.progr := hs.find hq
    exact h.drop (perm_eraseP hf) hfound.1 hfound.2
  · next hn =>
    obtain ⟨q, hq, hqp⟩ := h.home t hmem
    have hnone : ∀ p ∈ s.live, (s.queue p).player ≠ t.progr := hs.find_none hn
    exact absurd hqp (hnone q hq)

theorem killBg_counted (h : Counted s) (hq : q ∈ s.live) {id : ℤ}
    (hb : (s.queue q).bg.any (fun t => t.id = id) = true) : Counted (s.killBg q id) := by
  obtain ⟨t, ht⟩ : ∃ t, (s.queue q).bg.find? (fun t => t.id = id) = some t := by
    rw [← Option.isSome_iff_exists, List.find?_isSome]
    simpa using hb
  exact h.leave hq (perm_eraseP ht) rfl (fun _ => rfl) (fun _ => rfl)

theorem killTask_counted (h : Counted s) (hs : Shape s) (id owner : ℤ) (wizard : Bool) :
    Counted (s.killTask id owner wizard).2 := by
  unfold killTask
  split
  · exact h
  · split
    · next t hf =>
      split
      · exact h
      · exact killWaiting_counted h hs hf
    · split
      · split
        · exact h
        · exact h.same (killReading_same _ s)
      · split
        · next q hf =>
          have hq : q ∈ s.live := (hs.live q).mpr (.inr (List.mem_of_find?_eq_some hf))
          have hb := List.find?_some hf
          simp only [Bool.or_eq_true, decide_eq_true_eq] at hb
          unfold killActive
          split
          · exact h
          · split
            · exact h.same (killReading_same q s)
            · next hr => exact killBg_counted h hq (hb.resolve_left hr)
        · exact h

end Server

end LambdaMoo.Tasks
