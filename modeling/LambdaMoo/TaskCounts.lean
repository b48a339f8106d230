import Mathlib.Data.List.Count
import LambdaMoo.TaskRuns

/-!
# Counting background tasks

The count of a queue is to be the number of its own background tasks and of the
waiting tasks of its player. Most operations leave all that the count depends
on as it is; the others change one queue and the waiting list together.

The queues that a login takes over keep no player, and there may be several of
those at a time: a task without a programmer then has no one queue to be
counted in.
-/

set_option autoImplicit false

namespace LambdaMoo.Tasks
open LambdaMoo.Input (How)

def tasksOf (ts : List Task) (player : ℤ) : ℕ := ts.countP fun t => t.progr = player

namespace Server

variable {s s' : Server} {q p : ℕ}

/-- No task is queued for nobody. -/
structure NoneForNobody (s : Server) : Prop where
  waiting : ∀ t ∈ s.waiting, t.progr ≠ nobody
  bg : ∀ q ∈ s.live, (s.queue q).player = nobody → (s.queue q).bg = []

structure Counted (s : Server) : Prop where
  count : ∀ q ∈ s.live, (s.queue q).numBgTasks =
    (s.queue q).bg.length+tasksOf s.waiting (s.queue q).player
  owned : ∀ q ∈ s.live, ∀ t ∈ (s.queue q).bg, t.progr = (s.queue q).player
  home : ∀ t ∈ s.waiting, ∃ q ∈ s.live, (s.queue q).player = t.progr
  unique : ∀ q ∈ s.live, ∀ p ∈ s.live, q ≠ p → (s.queue q).player = (s.queue p).player →
    (s.queue q).player = nobody ∧ NoneForNobody s
  somebody : ∀ q ∈ s.live, (s.queue q).connected = true → (s.queue q).player ≠ nobody
  login : ∀ q, s.phase = .login q → (s.queue q).player < 0
  next : s.nextUnconnected < nobody

/-- Nothing that the counts depend on is different. -/
structure SameBooks (s s' : Server) : Prop where
  live : s'.live = s.live
  waiting : s'.waiting = s.waiting
  player : ∀ q, (s'.queue q).player = (s.queue q).player
  bg : ∀ q, (s'.queue q).bg = (s.queue q).bg
  numBgTasks : ∀ q, (s'.queue q).numBgTasks = (s.queue q).numBgTasks
  connected : ∀ q, (s'.queue q).connected = true → (s.queue q).connected = true
  login : ∀ q, s'.phase = .login q → s.phase = .login q ∨ (s.queue q).player < 0
  next : s'.nextUnconnected = s.nextUnconnected

theorem SameBooks.rfl : SameBooks s s :=
  ⟨Eq.refl _, Eq.refl _, fun _ => Eq.refl _, fun _ => Eq.refl _, fun _ => Eq.refl _,
    fun _ => id, fun _ => .inl, Eq.refl _⟩

theorem SameBooks.trans {s'' : Server} (h : SameBooks s s') (h' : SameBooks s' s'') :
    SameBooks s s'' where
  live := h'.live.trans h.live
  waiting := h'.waiting.trans h.waiting
  player q := (h'.player q).trans (h.player q)
  bg q := (h'.bg q).trans (h.bg q)
  numBgTasks q := (h'.numBgTasks q).trans (h.numBgTasks q)
  connected q hq := h.connected q (h'.connected q hq)
  login q hq := by
    rcases h'.login q hq with h1 | h1
    · exact h.login q h1
    · exact .inr (by rw [← h.player q]; exact h1)
  next := h'.next.trans h.next

theorem SameBooks.modify (s : Server) (q : ℕ) {f : TQueue → TQueue}
    (hp : ∀ tq, (f tq).player = tq.player) (hb : ∀ tq, (f tq).bg = tq.bg)
    (hn : ∀ tq, (f tq).numBgTasks = tq.numBgTasks)
    (hc : ∀ tq, (f tq).connected = true → tq.connected = true) : SameBooks s (s.modify q f) where
  live := Eq.refl _
  waiting := Eq.refl _
  player p := modify_field TQueue.player hp q p s
  bg p := modify_field TQueue.bg hb q p s
  numBgTasks p := modify_field TQueue.numBgTasks hn q p s
  connected p h := by
    by_cases hpq : p = q
    · subst hpq
      rw [modify_self] at h
      exact hc _ h
    · rwa [modify_of_ne f s hpq] at h
  login _ h := .inl h
  next := Eq.refl _

theorem NoneForNobody.same (h : NoneForNobody s) (hs : SameBooks s s') : NoneForNobody s' where
  waiting := hs.waiting ▸ h.waiting
  bg q hq hp := by
    rw [hs.bg]
    exact h.bg q (hs.live ▸ hq) ((hs.player q).symm.trans hp)

theorem Counted.same (h : Counted s) (hs : SameBooks s s') : Counted s' where
  count q hq := by
    rw [hs.numBgTasks, hs.bg, hs.waiting, hs.player]
    exact h.count q (hs.live ▸ hq)
  owned q hq t ht := by
    rw [hs.player]
    exact h.owned q (hs.live ▸ hq) t (hs.bg q ▸ ht)
  home t ht := by
    obtain ⟨q, hq, hp⟩ := h.home t (hs.waiting ▸ ht)
    exact ⟨q, hs.live ▸ hq, (hs.player q).trans hp⟩
  unique q hq p hp hne he := by
    rw [hs.player, hs.player] at he
    obtain ⟨hn, hno⟩ := h.unique q (hs.live ▸ hq) p (hs.live ▸ hp) hne he
    exact ⟨(hs.player q).trans hn, hno.same hs⟩
  somebody q hq hc := by
    rw [hs.player]
    exact h.somebody q (hs.live ▸ hq) (hs.connected q hc)
  login q hq := by
    rw [hs.player]
    rcases hs.login q hq with h1 | h1
    · exact h.login q h1
    · exact h1
  next := hs.next ▸ h.next

theorem Woken.same (hw : Woken q s s') : SameBooks s s' := by
  have hq : ∀ p, ∃ u, s'.queue p = {s.queue p with usage := u} := hw.queue
  refine ⟨hw.live, hw.waiting, ?_, ?_, ?_, ?_, ?_, hw.nextUnconnected⟩
  · intro p
    obtain ⟨u, hu⟩ := hq p
    rw [hu]
  · intro p
    obtain ⟨u, hu⟩ := hq p
    rw [hu]
  · intro p
    obtain ⟨u, hu⟩ := hq p
    rw [hu]
  · intro p hc
    obtain ⟨u, hu⟩ := hq p
    rw [hu] at hc
    exact hc
  · intro p hp
    exact .inl (hw.phase ▸ hp)

/-- A queue with a task has its player to itself. -/
theorem Counted.alone (h : Counted s) (hq : q ∈ s.live)
    (ht : (s.queue q).bg ≠ [] ∨ ∃ t ∈ s.waiting, t.progr = (s.queue q).player) :
    ∀ p ∈ s.live, (s.queue p).player = (s.queue q).player → p = q := by
  intro p hp he
  by_contra hne
  obtain ⟨hn, hno⟩ := h.unique q hq p hp (Ne.symm hne) he.symm
  rcases ht with hb | ⟨t, ht, htp⟩
  · exact hb (hno.bg q hq hn)
  · exact hno.waiting t ht (htp.trans hn)

theorem tasksOf_pos {ts : List Task} {player : ℤ} :
    0 < tasksOf ts player ↔ ∃ t ∈ ts, t.progr = player := by
  simp [tasksOf, List.countP_pos_iff]

/-- A change of one queue and of the waiting list that agree for the queue's player. -/
theorem Counted.change (h : Counted s) (hq : q ∈ s.live) {f : TQueue → TQueue} {ts : List Task}
    (hplayer : ∀ tq, (f tq).player = tq.player)
    (hconn : ∀ tq, (f tq).connected = tq.connected)
    (hother : ∀ y, y ≠ (s.queue q).player → tasksOf ts y = tasksOf s.waiting y)
    (hnum : (f (s.queue q)).numBgTasks =
      (f (s.queue q)).bg.length+tasksOf ts (s.queue q).player)
    (howned : ∀ t ∈ (f (s.queue q)).bg, t.progr = (s.queue q).player)
    (halone : ∀ p ∈ s.live, (s.queue p).player = (s.queue q).player → p = q) :
    Counted {s.modify q f with waiting := ts} := by
  have hpl : ∀ p, ((s.modify q f).queue p).player = (s.queue p).player := fun p =>
    modify_field TQueue.player hplayer q p s
  have hco : ∀ p, ((s.modify q f).queue p).connected = (s.queue p).connected := fun p =>
    modify_field TQueue.connected hconn q p s
  refine ⟨?_, ?_, ?_, ?_, ?_, ?_, h.next⟩
  · intro p hp
    show ((s.modify q f).queue p).numBgTasks =
      ((s.modify q f).queue p).bg.length+tasksOf ts ((s.modify q f).queue p).player
    rw [hpl]
    by_cases hpq : p = q
    · subst hpq
      rw [modify_self]
      exact hnum
    · rw [modify_of_ne f s hpq, hother _ fun he => hpq (halone p hp he)]
      exact h.count p hp
  · intro p hp t ht
    show t.progr = ((s.modify q f).queue p).player
    rw [hpl]
    change t ∈ ((s.modify q f).queue p).bg at ht
    by_cases hpq : p = q
    · subst hpq
      rw [modify_self] at ht
      exact howned t ht
    · rw [modify_of_ne f s hpq] at ht
      exact h.owned p hp t ht
  · intro t ht
    show ∃ p ∈ s.live, ((s.modify q f).queue p).player = t.progr
    by_cases htq : t.progr = (s.queue q).player
    · exact ⟨q, hq, (hpl q).trans htq.symm⟩
    · have hpos : 0 < tasksOf s.waiting t.progr := by
        rw [← hother _ htq]
        exact tasksOf_pos.mpr ⟨t, ht, rfl⟩
      obtain ⟨u, hu, hut⟩ := tasksOf_pos.mp hpos
      obtain ⟨p, hp, hpp⟩ := h.home u hu
      exact ⟨p, hp, (hpl p).trans (hpp.trans hut)⟩
  · intro p hp r hr hne he
    change ((s.modify q f).queue p).player = ((s.modify q f).queue r).player at he
    rw [hpl, hpl] at he
    obtain ⟨hn, hno⟩ := h.unique p hp r hr hne he
    have hqn : (s.queue q).player ≠ nobody := by
      intro hqn
      exact hne ((halone p hp (hn.trans hqn.symm)).trans
        (halone r hr (he.symm.trans (hn.trans hqn.symm))).symm)
    refine ⟨(hpl p).trans hn, ?_, ?_⟩
    · intro t ht htn
      have hpos : 0 < tasksOf s.waiting nobody := by
        rw [← hother nobody hqn.symm]
        exact tasksOf_pos.mpr ⟨t, ht, htn⟩
      obtain ⟨u, hu, hun⟩ := tasksOf_pos.mp hpos
      exact hno.waiting u hu hun
    · intro x hx hxn
      change ((s.modify q f).queue x).player = nobody at hxn
      show ((s.modify q f).queue x).bg = []
      rw [hpl] at hxn
      have hxq : x ≠ q := fun he => hqn (he ▸ hxn)
      rw [modify_of_ne f s hxq]
      exact hno.bg x hx hxn
  · intro p hp hc
    show ((s.modify q f).queue p).player ≠ nobody
    rw [hpl]
    exact h.somebody p hp ((hco p).symm.trans hc)
  · intro p hp
    show ((s.modify q f).queue p).player < 0
    rw [hpl]
    exact h.login p hp

theorem Shape.find_none (h : Shape s) {player : ℤ} (hf : s.findTqueue player = none) :
    ∀ q ∈ s.live, (s.queue q).player ≠ player := by
  intro q hq he
  have := List.find?_eq_none.mp hf q (by rw [List.mem_append, or_comm]; exact (h.live q).mp hq)
  simp [he] at this

theorem Shape.phase_live (h : Shape s) (hp : s.phase.queue = some q) : q ∈ s.live :=
  (h.live q).mpr (.inr (List.mem_of_mem_head? (h.head q hp)))

theorem Counted.none_of (h : Counted s) {player : ℤ}
    (hn : ∀ q ∈ s.live, (s.queue q).player ≠ player) : tasksOf s.waiting player = 0 := by
  by_contra hne
  obtain ⟨t, ht, htp⟩ := tasksOf_pos.mp (Nat.pos_of_ne_zero hne)
  obtain ⟨q, hq, hqp⟩ := h.home t ht
  exact hn q hq (hqp.trans htp)

/-- A new queue has no tasks, and none are waiting for its player. -/
theorem Counted.obtain (h : Counted s) (hs : Shape s) (flush : Option Str) (player : ℤ) :
    Counted (s.obtainTqueue flush player).2 := by
  have ho := hs.obtain flush player
  rcases ho.found with ⟨-, he⟩ | ⟨hf, -, hlive, -, hnew⟩
  · rw [he]
    exact h
  · have hnone := hs.find_none hf
    have hmem : ∀ q ∈ (s.obtainTqueue flush player).2.live, q = s.fresh ∨ q ∈ s.live := by
      intro q hq
      rw [hlive] at hq
      exact List.mem_cons.mp hq
    have hold : ∀ q ∈ s.live, (s.obtainTqueue flush player).2.queue q = s.queue q := ho.queue
    refine ⟨?_, ?_, ?_, ?_, ?_, ?_, ?_⟩
    · intro q hq
      rw [ho.waiting]
      rcases hmem q hq with rfl | hq
      · rw [hnew]
        simp [newTQueue, h.none_of hnone]
      · rw [hold q hq]
        exact h.count q hq
    · intro q hq t ht
      rcases hmem q hq with rfl | hq
      · rw [hnew] at ht
        cases ht
      · rw [hold q hq] at ht ⊢
        exact h.owned q hq t ht
    · intro t ht
      rw [ho.waiting] at ht
      obtain ⟨q, hq, hqp⟩ := h.home t ht
      exact ⟨q, by rw [hlive]; exact List.mem_cons_of_mem _ hq, by rw [hold q hq]; exact hqp⟩
    · intro q hq p hp hne he
      rcases hmem q hq with rfl | hq
      · rcases hmem p hp with rfl | hp
        · exact absurd rfl hne
        · rw [hnew, hold p hp] at he
          exact absurd he.symm (hnone p hp)
      · rcases hmem p hp with rfl | hp
        · rw [hnew, hold q hq] at he
          exact absurd he (hnone q hq)
        · rw [hold q hq, hold p hp] at he
          obtain ⟨hn, hno⟩ := h.unique q hq p hp hne he
          refine ⟨by rw [hold q hq]; exact hn, by rw [ho.waiting]; exact hno.waiting, ?_⟩
          intro x hx hxn
          rcases hmem x hx with rfl | hx
          · rw [hnew]
            rfl
          · rw [hold x hx] at hxn ⊢
            exact hno.bg x hx hxn
    · intro q hq hc
      rcases hmem q hq with rfl | hq
      · rw [hnew] at hc
        cases hc
      · rw [hold q hq] at hc ⊢
        exact h.somebody q hq hc
    · intro q hp
      rw [ho.phase] at hp
      rw [hold q (hs.phase_live (by rw [hp]; rfl))]
      exact h.login q hp
    · rw [ho.nextUnconnected]
      exact h.next

end Server

end LambdaMoo.Tasks
