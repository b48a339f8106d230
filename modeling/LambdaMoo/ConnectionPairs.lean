import LambdaMoo.Connections
import LambdaMoo.TaskPlayers

/-!
# Connections and task queues in step

Each handle has an open task queue for its player, and each open task queue
has a handle. So the handle is there whenever a queue asks for it.
-/

set_option autoImplicit false

namespace LambdaMoo.Connections
open LambdaMoo.Tasks (Server nobody)
open LambdaMoo.Tasks.Server

/-- What the handle is for. -/
def Shandle.face (h : Shandle) : ℕ × ℤ × ℕ := (h.id, h.player, h.tasks)

/-- Neither of the two faults, and `P` of the result. -/
structure Safe {α : Type} (P : α → Prop) (r : Result α) : Prop where
  error : ∀ e, r = .error e → e ≠ noShandle ∧ e ≠ notConnected
  ok : ∀ a, r = .ok a → P a

section Safe
variable {α β : Type} {P : α → Prop} {Q : β → Prop} {r : Result α}

theorem Safe.of_ok {a : α} (h : P a) : Safe P (.ok a) := by
  refine ⟨fun e he => ?_, fun b hb => ?_⟩
  · cases he
  · cases hb
    exact h

theorem Safe.bind {f : α → Result β} (h : Safe P r) (hf : ∀ a, r = .ok a → P a → Safe Q (f a)) :
    Safe Q (r >>= f) := by
  cases hr : r with
  | error e =>
    refine ⟨fun e' he => ?_, fun b hb => ?_⟩
    · cases he
      exact h.error e hr
    · cases hb
  | ok a => exact hf a hr (h.ok a hr)

theorem Safe.imp {P' : α → Prop} (h : Safe P r) (hP : ∀ a, P a → P' a) : Safe P' r :=
  ⟨h.error, fun a ha => hP a (h.ok a ha)⟩

theorem Safe.of_calm {s : Server} {r : Result Server} (h : Calm s id r) : Safe (Quiet s) r := by
  refine ⟨fun e he => ?_, fun s' hs => h.ok s' hs⟩
  rw [h.error e he]
  exact ⟨by decide, by decide⟩

end Safe

namespace Conns

structure Paired (c : Conns) : Prop where
  shape : c.tasks.Shape
  known : c.tasks.Known
  next : c.tasks.nextUnconnected < nobody
  ids : (c.handles.map (·.id)).Nodup
  fresh : ∀ h ∈ c.handles, h.id < c.fresh
  players : ∀ h ∈ c.handles, ∀ h' ∈ c.handles, h.player = h'.player → h.id = h'.id
  somebody : ∀ h ∈ c.handles, c.tasks.nextUnconnected < h.player ∧ h.player ≠ nobody
  queue : ∀ h ∈ c.handles, h.tasks ∈ c.tasks.live ∧
    (c.tasks.queue h.tasks).connected = true ∧ (c.tasks.queue h.tasks).player = h.player
  handle : ∀ q ∈ c.tasks.live, (c.tasks.queue q).connected = true → ∃ h ∈ c.handles, h.tasks = q

/-- The same handles, but for what nothing here depends on. -/
structure Like (c c' : Conns) : Prop where
  faces : c'.handles.map Shandle.face = c.handles.map Shandle.face
  fresh : c'.fresh = c.fresh

variable {c c' : Conns} {q : ℕ}

theorem Like.rfl : c.Like c := ⟨Eq.refl _, Eq.refl _⟩

theorem Like.symm (h : c.Like c') : c'.Like c := ⟨h.faces.symm, h.fresh.symm⟩

theorem Like.mem (hl : c.Like c') {h' : Shandle} (hm : h' ∈ c'.handles) :
    ∃ h ∈ c.handles, h.id = h'.id ∧ h.player = h'.player ∧ h.tasks = h'.tasks := by
  have hf : h'.face ∈ c.handles.map Shandle.face := by
    rw [← hl.faces]
    exact List.mem_map_of_mem hm
  obtain ⟨h, hh, he⟩ := List.mem_map.mp hf
  simp only [Shandle.face, Prod.mk.injEq] at he
  exact ⟨h, hh, he⟩

theorem Like.ids (hl : c.Like c') : c'.handles.map (·.id) = c.handles.map (·.id) := by
  have := congrArg (List.map Prod.fst) hl.faces
  rw [List.map_map, List.map_map] at this
  exact this

theorem modifyShandle_like (c : Conns) (id : ℕ) {f : Shandle → Shandle}
    (hf : ∀ h, (f h).face = h.face) : c.Like (c.modifyShandle id f) := by
  refine ⟨?_, rfl⟩
  rw [modifyShandle, List.map_map]
  apply List.map_congr_left
  intro h _
  rw [Function.comp_apply]
  split
  · exact hf h
  · rfl

/-- Nothing but the players of the queues and what is open matters. -/
theorem Paired.quiet (hp : c.Paired) (hl : c.Like c') (hs : c'.tasks.Shape)
    (hq : Quiet c.tasks c'.tasks) : c'.Paired where
  shape := hs
  known := hq.known hp.known
  next := hq.next ▸ hp.next
  ids := hl.ids ▸ hp.ids
  fresh h' hm := by
    obtain ⟨h, hh, hid, -⟩ := hl.mem hm
    rw [hl.fresh, ← hid]
    exact hp.fresh h hh
  players h' hm g' hg he := by
    obtain ⟨h, hh, hid, hpl, -⟩ := hl.mem hm
    obtain ⟨g, hgm, gid, gpl, -⟩ := hl.mem hg
    rw [← hid, ← gid]
    exact hp.players h hh g hgm (by rw [hpl, gpl, he])
  somebody h' hm := by
    obtain ⟨h, hh, -, hpl, -⟩ := hl.mem hm
    rw [hq.next, ← hpl]
    exact hp.somebody h hh
  queue h' hm := by
    obtain ⟨h, hh, -, hpl, ht⟩ := hl.mem hm
    obtain ⟨hlive, hc, hpq⟩ := hp.queue h hh
    rw [← ht, ← hpl]
    have hstay := hq.stays _ hlive hc
    obtain ⟨h1, h2⟩ := hq.same _ hstay hlive
    exact ⟨hstay, h2.trans hc, h1.trans hpq⟩
  handle q hm hc := by
    have hlive : q ∈ c.tasks.live := by
      by_contra hn
      rw [(hq.new q hm hn).2] at hc
      cases hc
    obtain ⟨h, hh, ht⟩ := hp.handle q hlive (by rw [← (hq.same q hm hlive).2, hc])
    obtain ⟨h', hh', -, -, ht'⟩ := hl.symm.mem hh
    exact ⟨h', hh', ht'.trans ht⟩

theorem findShandle_mem {player : ℤ} {h : Shandle} (hf : c.findShandle player = some h) :
    h ∈ c.handles ∧ h.player = player :=
  ⟨List.mem_of_find?_eq_some hf, of_decide_eq_true (List.find?_some hf : _)⟩

theorem findShandle_some {h : Shandle} (hm : h ∈ c.handles) :
    ∃ h', c.findShandle h.player = some h' := by
  apply Option.isSome_iff_exists.mp
  rw [findShandle, List.find?_isSome]
  exact ⟨h, hm, by simp⟩

theorem Paired.unique (hp : c.Paired) {h h' : Shandle} (hm : h ∈ c.handles) (hm' : h' ∈ c.handles)
    (hid : h.id = h'.id) : h = h' :=
  List.inj_on_of_nodup_map hp.ids hm hm' hid

/-- The handle of an open queue is found by the player of the queue. -/
theorem Paired.find (hp : c.Paired) (hq : q ∈ c.tasks.live)
    (hc : (c.tasks.queue q).connected = true) :
    ∃ h, c.findShandle (c.tasks.queue q).player = some h ∧ h.tasks = q := by
  obtain ⟨h, hm, rfl⟩ := hp.handle q hq hc
  obtain ⟨-, -, hpl⟩ := hp.queue h hm
  obtain ⟨h', hf⟩ := findShandle_some hm
  obtain ⟨hm', hpl'⟩ := findShandle_mem hf
  rw [hp.unique hm' hm (hp.players h' hm' h hm hpl')] at hf
  exact ⟨h, by rw [hpl]; exact hf, rfl⟩

section Flow
variable (hfind : (c.tasks.queue q).connected = true →
  ∃ h, c.findShandle (c.tasks.queue q).player = some h)
include hfind

theorem serverSetInput_safe (value b : Bool) (hc : (c.tasks.queue q).connected = true) :
    Safe (fun c' => c.Like c' ∧ c'.tasks = c.tasks) (do
      let c ← c.serverSetInput value (c.tasks.queue q).player
      .ok { c with suspended := Function.update c.suspended q b }) := by
  obtain ⟨h, hh⟩ := hfind hc
  rw [serverSetInput, hh]
  apply Safe.of_ok
  obtain ⟨hf, hn⟩ := modifyShandle_like c h.id (f := fun h => { h with suspended := value })
    fun _ => by rfl
  exact ⟨⟨hf, hn⟩, rfl⟩

theorem relieve_safe : Safe (fun c' => c.Like c' ∧ c'.tasks = c.tasks) (c.relieve q) := by
  unfold relieve
  dsimp only
  split
  · next hc => exact serverSetInput_safe hfind false false hc.2.1
  · exact Safe.of_ok ⟨Like.rfl, rfl⟩

theorem press_safe : Safe (fun c' => c.Like c' ∧ c'.tasks = c.tasks) (c.press q) := by
  unfold press
  dsimp only
  split
  · next hc => exact serverSetInput_safe hfind true true hc.2.1
  · exact Safe.of_ok ⟨Like.rfl, rfl⟩

theorem taskSuspendInput_safe :
    Safe (fun c' => c.Like c' ∧ c'.tasks = c.tasks) (c.taskSuspendInput q) := by
  unfold taskSuspendInput
  dsimp only
  split
  · next hc => exact serverSetInput_safe hfind true true hc.2
  · exact Safe.of_ok ⟨Like.rfl, rfl⟩

end Flow

theorem settle_like {s : Server} (hfind : (s.queue q).connected = true →
    ∃ h, c.findShandle (s.queue q).player = some h) :
    Safe (fun c' => c.Like c' ∧ c'.tasks = s) (c.settle q s) := by
  have hfind' : (({ c with tasks := s } : Conns).tasks.queue q).connected = true →
      ∃ h, ({ c with tasks := s } : Conns).findShandle (s.queue q).player = some h := hfind
  unfold settle
  dsimp only
  generalize (if q ∈ c.tasks.live then _ else _) = before
  split
  · exact (relieve_safe hfind').imp fun _ h => ⟨⟨h.1.faces, h.1.fresh⟩, h.2⟩
  · split
    · exact (press_safe hfind').imp fun _ h => ⟨⟨h.1.faces, h.1.fresh⟩, h.2⟩
    · exact Safe.of_ok ⟨⟨rfl, rfl⟩, rfl⟩

theorem Paired.settle (hp : c.Paired) {s : Server} (hs : s.Shape) (hq : Quiet c.tasks s)
    (hm : q ∈ s.live) : Safe (fun c' => c'.Paired ∧ c'.tasks = s) (c.settle q s) := by
  have hp' : ({ c with tasks := s } : Conns).Paired := hp.quiet ⟨rfl, rfl⟩ hs hq
  have hfind : (s.queue q).connected = true → ∃ h, c.findShandle (s.queue q).player = some h := by
    intro hc
    obtain ⟨h, hh, -⟩ := hp'.find hm hc
    exact ⟨h, hh⟩
  refine (settle_like hfind).imp ?_
  rintro c' ⟨hl, rfl⟩
  exact ⟨hp.quiet hl hs hq, rfl⟩

/-- A queue that is closed, as far as players and connections go. -/
theorem freeTaskQueue_players {s : Server} (hs : s.Shape) (q : ℕ) :
    Safe (fun s' => s'.Shape ∧ SamePlayers (s.modify q fun tq => { tq with connected := false }) s')
      (s.freeTaskQueue q) := by
  have h1 := hs.modify q (f := fun tq => { tq with connected := false }) fun _ => by rfl
  refine ⟨fun e he => ?_, fun s' h' => ⟨(freeTaskQueue_keeps hs h').1, ?_⟩⟩
  · unfold freeTaskQueue at he
    dsimp only at he
    split at he
    · rw [(ensureUsage_calm _ _).error e he]
      exact ⟨by decide, by decide⟩
    · cases he
  · unfold freeTaskQueue at h'
    dsimp only at h'
    split at h'
    · exact ensureUsage_players h'
    · cases h'
      exact SamePlayers.rfl

theorem Paired.freeShandle (hp : c.Paired) {h : Shandle} (hm : h ∈ c.handles) :
    Safe Paired (c.freeShandle h) := by
  refine (freeTaskQueue_players hp.shape h.tasks).bind ?_
  rintro s _ ⟨hs, hsame⟩
  have hmem : ∀ g, g ∈ c.handles.filter (·.id ≠ h.id) ↔ g ∈ c.handles ∧ g.id ≠ h.id := by
    intro g
    simp
  have hplayer : ∀ q, (s.queue q).player = (c.tasks.queue q).player := by
    intro q
    rw [hsame.player]
    exact Tasks.Server.modify_field Tasks.TQueue.player (fun _ => by rfl) _ _ _
  have hothers : ∀ q, q ≠ h.tasks → (s.queue q).connected = (c.tasks.queue q).connected := by
    intro q hq
    rw [hsame.connected, Tasks.Server.modify_of_ne _ _ hq]
  have hlive : s.live = c.tasks.live := hsame.live
  apply Safe.of_ok
  refine ⟨hs, ?_, ?_, ?_, ?_, ?_, ?_, ?_, ?_⟩
  · exact hsame.quiet.known (hp.known.modify _ fun _ => by rfl)
  · show s.nextUnconnected < nobody
    rw [hsame.next]
    exact hp.next
  · exact hp.ids.sublist (List.filter_sublist.map _)
  · intro g hg
    exact hp.fresh g ((hmem g).mp hg).1
  · intro g hg g' hg'
    exact hp.players g ((hmem g).mp hg).1 g' ((hmem g').mp hg').1
  · intro g hg
    show s.nextUnconnected < _ ∧ _
    rw [hsame.next]
    exact hp.somebody g ((hmem g).mp hg).1
  · intro g hg
    obtain ⟨hgm, hid⟩ := (hmem g).mp hg
    obtain ⟨hl, hc, hpl⟩ := hp.queue g hgm
    have hne : g.tasks ≠ h.tasks := by
      intro he
      apply hid
      apply hp.players g hgm h hm
      rw [← hpl, he]
      exact (hp.queue h hm).2.2
    refine ⟨hlive ▸ hl, ?_, ?_⟩
    · exact (hothers _ hne).trans hc
    · exact (hplayer _).trans hpl
  · intro q hq hc
    have hne : q ≠ h.tasks := by
      rintro rfl
      have hclosed : (s.queue h.tasks).connected = false := by
        rw [hsame.connected, Tasks.Server.modify_self]
      rw [show (s.queue h.tasks).connected = true from hc] at hclosed
      cases hclosed
    have hq' : q ∈ c.tasks.live := by
      rw [← hlive]
      exact hq
    obtain ⟨g, hg, ht⟩ := hp.handle q hq' ((hothers q hne).symm.trans hc)
    refine ⟨g, (hmem g).mpr ⟨hg, ?_⟩, ht⟩
    intro hid
    apply hne
    rw [← ht, hp.unique hg hm hid]

end Conns

end LambdaMoo.Connections
