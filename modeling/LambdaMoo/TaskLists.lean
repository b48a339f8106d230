import LambdaMoo.Tasks

/-!
# The two lists of task queues

Every operation keeps each queue on exactly one of the two lists. A queue that
has something to run belongs on the active list; the operations that give a
queue something to run wake it up at their end, so in between the queue in hand
is the only one that may be wrong.
-/

set_option autoImplicit false

namespace LambdaMoo.Tasks
open LambdaMoo.Input (How)

/-- A line that `run_ready_tasks` would take from the queue now. -/
def Dispatchable (tq : TQueue) : Prop :=
  tq.input ≠ [] ∧ (tq.holdInput = false ∨ tq.reading.isSome = true ∨
    (tq.disableOob = false ∧ ∃ t ∈ tq.input, Input.isOob t = true))

def Ready (tq : TQueue) : Prop := tq.bg ≠ [] ∨ Dispatchable tq

namespace Server

/-- The lists are in order, whatever the queues hold. -/
structure Shape (s : Server) : Prop where
  nodup : (s.idle ++ s.active).Nodup
  live : ∀ q, q ∈ s.live ↔ q ∈ s.idle ∨ q ∈ s.active
  single : s.live.Nodup
  usage : ∀ q ∈ s.idle, (s.queue q).usage = noUsage
  fresh : ∀ q ∈ s.live, q < s.fresh
  head : ∀ q, s.phase.queue = some q → s.active.head? = some q

/-- No queue but `q` has something to run while it is idle. -/
def ServedBut (q : ℕ) (s : Server) : Prop := ∀ p ∈ s.idle, p ≠ q → ¬Ready (s.queue p)

def Served (s : Server) : Prop := ∀ p ∈ s.idle, ¬Ready (s.queue p)

variable {s s' : Server} {q p : ℕ}

@[simp] theorem modify_self (q : ℕ) (f : TQueue → TQueue) (s : Server) :
    (s.modify q f).queue q = f (s.queue q) := by
  simp [modify]

theorem modify_eq_self {f : TQueue → TQueue} (h : f (s.queue q) = s.queue q) :
    s.modify q f = s := by
  rw [modify, h, Function.update_eq_self]

theorem modify_of_ne (f : TQueue → TQueue) (s : Server) (h : p ≠ q) :
    (s.modify q f).queue p = s.queue p := by
  simp [modify, h]

/-- A field that the change keeps is what it was, in every queue. -/
theorem modify_field {α : Type} (g : TQueue → α) {f : TQueue → TQueue}
    (hg : ∀ tq, g (f tq) = g tq) (q p : ℕ) (s : Server) :
    g ((s.modify q f).queue p) = g (s.queue p) := by
  by_cases hpq : p = q
  · subst hpq
    rw [modify_self, hg]
  · rw [modify_of_ne f s hpq]

@[simp] theorem modify_idle (q : ℕ) (f : TQueue → TQueue) (s : Server) :
    (s.modify q f).idle = s.idle := rfl
@[simp] theorem modify_active (q : ℕ) (f : TQueue → TQueue) (s : Server) :
    (s.modify q f).active = s.active := rfl
@[simp] theorem modify_live (q : ℕ) (f : TQueue → TQueue) (s : Server) :
    (s.modify q f).live = s.live := rfl
@[simp] theorem modify_waiting (q : ℕ) (f : TQueue → TQueue) (s : Server) :
    (s.modify q f).waiting = s.waiting := rfl
@[simp] theorem modify_phase (q : ℕ) (f : TQueue → TQueue) (s : Server) :
    (s.modify q f).phase = s.phase := rfl
@[simp] theorem modify_fresh (q : ℕ) (f : TQueue → TQueue) (s : Server) :
    (s.modify q f).fresh = s.fresh := rfl

theorem Shape.modify (h : Shape s) (q : ℕ) {f : TQueue → TQueue}
    (hf : ∀ tq, (f tq).usage = tq.usage) : Shape (s.modify q f) where
  nodup := h.nodup
  live := h.live
  single := h.single
  usage := by
    intro p hp
    rw [modify_field TQueue.usage hf]
    exact h.usage p hp
  fresh := h.fresh
  head := h.head

theorem ServedBut.modify (h : ServedBut q s) (f : TQueue → TQueue) :
    ServedBut q (s.modify q f) := by
  intro p hp hne
  rw [modify_of_ne f s hne]
  exact h p hp hne

theorem Served.but (h : Served s) (q : ℕ) : ServedBut q s := fun p hp _ => h p hp

theorem ServedBut.served (h : ServedBut q s) (hq : q ∈ s.idle → ¬Ready (s.queue q)) :
    Served s := by
  intro p hp
  by_cases hpq : p = q
  · exact hpq ▸ hq (hpq ▸ hp)
  · exact h p hp hpq

theorem Served.modify (h : Served s) {f : TQueue → TQueue}
    (hf : Ready (f (s.queue q)) → Ready (s.queue q)) : Served (s.modify q f) := by
  apply ((h.but q).modify f).served
  intro hq
  rw [modify_self]
  exact fun hr => h q hq (hf hr)

theorem Shape.disjoint (h : Shape s) (hq : q ∈ s.idle) : q ∉ s.active :=
  fun ha => (List.nodup_append.mp h.nodup).2.2 q hq q ha rfl

theorem Shape.idle_nodup (h : Shape s) : s.idle.Nodup := (List.nodup_append.mp h.nodup).1

theorem activateTqueue_perm (q : ℕ) (s : Server) :
    (s.activateTqueue q).active.Perm (q::s.active) := by
  unfold activateTqueue
  exact List.perm_middle.trans (by rw [List.takeWhile_append_dropWhile])

theorem activateTqueue_mem (q : ℕ) (s : Server) :
    p ∈ (s.activateTqueue q).active ↔ p = q ∨ p ∈ s.active := by
  rw [(activateTqueue_perm q s).mem_iff, List.mem_cons]

/-- A queue of no less usage than the first one goes behind it. -/
theorem activateTqueue_head {qs : List ℕ} (ha : s.active = p::qs)
    (hu : (s.queue p).usage ≤ (s.queue q).usage) : (s.activateTqueue q).active.head? = some p := by
  simp [activateTqueue, ha, hu]

/-- What waking a queue up changes: the usage of the queue and the list that it is on. -/
structure Woken (q : ℕ) (s s' : Server) : Prop where
  shape : Shape s'
  idle : ∀ p, p ∈ s'.idle ↔ p ∈ s.idle ∧ p ≠ q
  live : s'.live = s.live
  waiting : s'.waiting = s.waiting
  phase : s'.phase = s.phase
  fresh : s'.fresh = s.fresh
  nextUnconnected : s'.nextUnconnected = s.nextUnconnected
  queue : ∀ p, ∃ u, s'.queue p = {s.queue p with usage := u}

theorem Shape.not_idle (h : Shape s) (hu : (s.queue q).usage ≠ noUsage) : q ∉ s.idle :=
  fun hq => hu (h.usage q hq)

theorem Shape.ensureUsage (h : Shape s) (hs : s.ensureUsage q = .ok s') : Woken q s s' := by
  unfold Server.ensureUsage at hs
  split at hs
  · next hu =>
    cases hs
    have hq := h.not_idle hu
    refine ⟨h, ?_, rfl, rfl, rfl, rfl, rfl, fun p => ⟨(s.queue p).usage, rfl⟩⟩
    intro p
    constructor
    · intro hp
      exact ⟨hp, fun he => hq (he ▸ hp)⟩
    · exact And.left
  · split at hs
    · next hu hq =>
      cases hs
      have hmem : ∀ p, p ∈ s.idle.erase q ↔ p ∈ s.idle ∧ p ≠ q := by
        intro p
        rw [h.idle_nodup.mem_erase_iff]
        exact and_comm
      have hqa := h.disjoint hq
      refine ⟨⟨?_, ?_, h.single, ?_, h.fresh, ?_⟩, hmem, rfl, rfl, rfl, rfl, rfl, ?_⟩
      · have hp : (s.idle.erase q ++ q::s.active).Nodup := by
          have := (List.perm_cons_erase hq).append_right s.active
          have hn := this.nodup_iff.mp h.nodup
          exact List.perm_middle.nodup_iff.mpr hn
        exact ((activateTqueue_perm q _).append_left _).nodup_iff.mpr hp
      · intro p
        show p ∈ s.live ↔ p ∈ s.idle.erase q ∨ p ∈ (activateTqueue q _).active
        rw [activateTqueue_mem, hmem, h.live]
        by_cases hpq : p = q
        · simp [hpq, hq]
        · simp [hpq]
      · intro p hp
        have hne := ((hmem p).mp hp).2
        show (Function.update s.queue q _ p).usage = noUsage
        rw [Function.update_of_ne hne]
        exact h.usage p ((hmem p).mp hp).1
      · intro r hr
        have hhead := h.head r hr
        cases ha : s.active with
        | nil => simp [ha] at hhead
        | cons a as =>
          have har : a = r := by simpa [ha] using hhead
          have hane : a ≠ q := fun he => hqa (by rw [ha, he]; exact List.mem_cons_self)
          rw [← har]
          refine activateTqueue_head (show _ = a::as from ha) ?_
          show (Function.update s.queue q _ a).usage ≤ (Function.update s.queue q _ q).usage
          rw [Function.update_of_ne hane, Function.update_self]
          simp [firstUsage, ha]
      · intro p
        by_cases hpq : p = q
        · subst hpq
          exact ⟨s.firstUsage, by simp [activateTqueue, Server.modify]⟩
        · exact ⟨(s.queue p).usage, by simp [activateTqueue, Server.modify, hpq]⟩
    · cases hs

theorem ready_usage (tq : TQueue) (u : ℤ) : Ready {tq with usage := u} ↔ Ready tq := Iff.rfl

theorem Woken.served (hw : Woken q s s') (h : ServedBut q s) : Served s' := by
  intro p hp
  obtain ⟨hp, hne⟩ := (hw.idle p).mp hp
  obtain ⟨u, hu⟩ := hw.queue p
  rw [hu, ready_usage]
  exact h p hp hne

theorem Shape.find (h : Shape s) {player : ℤ} (hf : s.findTqueue player = some q) :
    q ∈ s.live ∧ (s.queue q).player = player := by
  have hm := List.mem_of_find?_eq_some hf
  have hp := List.find?_some hf
  rw [List.mem_append, or_comm] at hm
  exact ⟨(h.live q).mpr hm, by simpa using hp⟩

/-- What `find_tqueue` changes when it is to create the queue. -/
structure Obtained (flush : Option Str) (player : ℤ) (s : Server) (r : ℕ × Server) : Prop where
  shape : Shape r.2
  mem : r.1 ∈ r.2.live
  whose : (r.2.queue r.1).player = player
  waiting : r.2.waiting = s.waiting
  phase : r.2.phase = s.phase
  nextUnconnected : r.2.nextUnconnected = s.nextUnconnected
  found : s.findTqueue player = some r.1 ∧ r.2 = s ∨
    s.findTqueue player = none ∧ r.1 = s.fresh ∧ r.2.live = s.fresh::s.live ∧
      r.2.idle = s.fresh::s.idle ∧ r.2.queue s.fresh = newTQueue player flush
  queue : ∀ p ∈ s.live, r.2.queue p = s.queue p

theorem Shape.obtain (h : Shape s) (flush : Option Str) (player : ℤ) :
    Obtained flush player s (s.obtainTqueue flush player) := by
  unfold obtainTqueue
  cases hf : s.findTqueue player with
  | some q =>
    obtain ⟨hq, hp⟩ := h.find hf
    exact ⟨h, hq, hp, rfl, rfl, rfl, .inl ⟨hf, rfl⟩, fun _ _ => rfl⟩
  | none =>
    have hnew : s.fresh ∉ s.live := fun hm => (h.fresh _ hm).ne rfl
    have hi : s.fresh ∉ s.idle := fun hm => hnew ((h.live _).mpr (.inl hm))
    have ha : s.fresh ∉ s.active := fun hm => hnew ((h.live _).mpr (.inr hm))
    have hold : ∀ p ∈ s.live, Function.update s.queue s.fresh (newTQueue player flush) p =
        s.queue p := fun p hp => Function.update_of_ne (h.fresh p hp).ne _ _
    refine ⟨⟨?_, ?_, ?_, ?_, ?_, h.head⟩, ?_, ?_, rfl, rfl, rfl, ?_, hold⟩
    · simpa [hi, ha] using h.nodup
    · intro q
      simp only [List.mem_cons, h.live, or_assoc]
    · simpa [hnew] using h.single
    · intro p hp
      by_cases hpf : p = s.fresh
      · simp [hpf, newTQueue]
      · have hp' : p ∈ s.idle := by simpa [hpf] using hp
        show (Function.update s.queue s.fresh _ p).usage = noUsage
        rw [hold p ((h.live p).mpr (.inl hp'))]
        exact h.usage p hp'
    · intro p hp
      rcases List.mem_cons.mp hp with rfl | hp
      · exact Nat.lt_succ_self _
      · exact Nat.lt_succ_of_lt (h.fresh p hp)
    · exact List.mem_cons_self
    · simp [newTQueue]
    · exact .inr ⟨hf, rfl, rfl, rfl, by simp⟩

theorem not_ready_new (player : ℤ) (flush : Option Str) : ¬Ready (newTQueue player flush) := by
  simp [Ready, Dispatchable, newTQueue]

theorem Obtained.idle {flush : Option Str} {player : ℤ} {r : ℕ × Server}
    (ho : Obtained flush player s r) (hp : p ∈ r.2.idle) :
    p ∈ s.idle ∨ r.2.queue p = newTQueue player flush := by
  rcases ho.found with ⟨-, he⟩ | ⟨-, -, -, hi, hn⟩
  · exact .inl (he ▸ hp)
  · rw [hi] at hp
    rcases List.mem_cons.mp hp with rfl | hp
    · exact .inr hn
    · exact .inl hp

theorem Obtained.served {flush : Option Str} {player : ℤ} {r : ℕ × Server}
    (ho : Obtained flush player s r) (hs : Shape s) (h : Served s) : Served r.2 := by
  intro p hp
  rcases ho.idle hp with hi | hn
  · rw [ho.queue p ((hs.live p).mpr (.inl hi))]
    exact h p hi
  · rw [hn]
    exact not_ready_new player flush

end Server

end LambdaMoo.Tasks
