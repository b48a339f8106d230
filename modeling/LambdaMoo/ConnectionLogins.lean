import LambdaMoo.ConnectionPairs

/-!
# Logins of connections

A connection that logs in gets the player of its user in both places, and the
connection that the user had is closed. The handles are found on the way.
-/

set_option autoImplicit false

namespace LambdaMoo.Connections
open LambdaMoo.Tasks (Server nobody)
open LambdaMoo.Tasks.Server

namespace Conns

variable {c c' : Conns} {q : ℕ}

/-- The task module once a connection has logged in and its player's old queue is closed. -/
structure Swapped (q : ℕ) (n : ℤ) (dead : Option ℕ) (s s' : Server) : Prop where
  shape : s'.Shape
  next : s'.nextUnconnected = s.nextUnconnected
  phase : s'.phase = s.phase
  mine : q ∈ s'.live ∧ (s'.queue q).player = n ∧ (s'.queue q).connected = true
  others : ∀ x ∈ s.live, x ≠ q → dead ≠ some x → x ∈ s'.live ∧
    (s'.queue x).player = (s.queue x).player ∧ (s'.queue x).connected = (s.queue x).connected
  dead : ∀ d, dead = some d → (s'.queue d).player = nobody ∧ (s'.queue d).connected = false
  new : ∀ x ∈ s'.live, x ∉ s.live → x = s.fresh ∧
    (s'.queue x).player = (s.queue q).player ∧ (s'.queue x).connected = false

section Login
variable (hp : c.Paired) (hphase : c.tasks.phase = .login q)
  (hc : (c.tasks.queue q).connected = true) (n : ℕ)
include hp hphase hc

omit hc in
theorem Paired.login_live : q ∈ c.tasks.live :=
  (hp.shape.live q).mpr (.inr (List.mem_of_mem_head? (hp.shape.head q (by rw [hphase]; rfl))))

/-- The number of a connection is no number of a user. -/
theorem Paired.login_player :
    (c.tasks.queue q).player < 0 ∧ (c.tasks.queue q).player ≠ nobody := by
  obtain ⟨h, hm, rfl⟩ := hp.handle q (hp.login_live hphase) hc
  refine ⟨hp.known.login _ hphase, ?_⟩
  rw [(hp.queue h hm).2.2]
  exact (hp.somebody h hm).2

omit hphase hc in
theorem Paired.found_player {x : ℕ} (hx : x ∈ c.tasks.live)
    (hpl : (c.tasks.queue x).player = n) : c.tasks.findTqueue n = some x := by
  cases hf : c.tasks.findTqueue n with
  | none =>
    have := List.find?_eq_none.mp hf x
      (by rw [List.mem_append, or_comm]; exact (hp.shape.live x).mp hx)
    simp [hpl] at this
  | some d =>
    obtain ⟨hd, hdn⟩ := hp.shape.find hf
    by_contra hne
    have hnobody := hp.known.unique x hx d hd (fun he => hne (by rw [he])) (hpl.trans hdn.symm)
    rw [hpl] at hnobody
    simp only [nobody] at hnobody
    omega

theorem Paired.dead_ne : c.tasks.findTqueue n ≠ some q := by
  intro hf
  have := (hp.login_player hphase hc).1
  have := (hp.shape.find hf).2
  omega

theorem Swapped.known {s' : Server} (hs : Swapped q n (c.tasks.findTqueue n) c.tasks s') :
    ({ s' with phase := .task q } : Server).Known := by
  obtain ⟨hneg, hnobody⟩ := hp.login_player hphase hc
  have hlive := hp.login_live hphase
  have hmine : ∀ x ∈ s'.live, (s'.queue x).player = n → x = q := by
    intro x hx hpl
    by_contra hxq
    by_cases hd : c.tasks.findTqueue n = some x
    · have hno := (hs.dead x hd).1
      rw [hpl] at hno
      simp only [nobody] at hno
      omega
    · by_cases hxl : x ∈ c.tasks.live
      · rw [(hs.others x hxl hxq hd).2.1] at hpl
        exact hd (hp.found_player n hxl hpl)
      · rw [(hs.new x hx hxl).2.1] at hpl
        omega
  have hnew : ∀ x ∈ s'.live, (s'.queue x).player = (c.tasks.queue q).player → x = c.tasks.fresh := by
    intro x hx hpl
    by_cases hxl : x ∈ c.tasks.live
    · by_cases hxq : x = q
      · rw [hxq, hs.mine.2.1] at hpl
        omega
      · by_cases hd : c.tasks.findTqueue n = some x
        · rw [(hs.dead x hd).1] at hpl
          exact absurd hpl.symm hnobody
        · rw [(hs.others x hxl hxq hd).2.1] at hpl
          have := hp.known.unique x hxl q hlive hxq hpl
          exact absurd (hpl.symm.trans this) hnobody
    · exact (hs.new x hx hxl).1
  have hold : ∀ x ∈ s'.live, x ≠ q → (s'.queue x).player ≠ nobody →
      (s'.queue x).player ≠ (c.tasks.queue q).player →
      x ∈ c.tasks.live ∧ (s'.queue x).player = (c.tasks.queue x).player := by
    intro x hx hxq hno hne
    have hd : c.tasks.findTqueue n ≠ some x := fun hd => hno (hs.dead x hd).1
    have hxl : x ∈ c.tasks.live := by
      by_contra hn
      exact hne (hs.new x hx hn).2.1
    exact ⟨hxl, (hs.others x hxl hxq hd).2.1⟩
  refine ⟨?_, fun x hx => by cases hx⟩
  intro x hx y hy hxy he
  by_contra hno
  have hx' : x ∈ s'.live := hx
  have hy' : y ∈ s'.live := hy
  have he' : (s'.queue x).player = (s'.queue y).player := he
  have hno' : (s'.queue x).player ≠ nobody := hno
  by_cases hold' : (s'.queue x).player = (c.tasks.queue q).player
  · exact hxy ((hnew x hx' hold').trans (hnew y hy' (he'.symm.trans hold')).symm)
  · by_cases hn : (s'.queue x).player = n
    · exact hxy ((hmine x hx' hn).trans (hmine y hy' (he'.symm.trans hn)).symm)
    · have hxq : x ≠ q := fun h => hn (by rw [h]; exact hs.mine.2.1)
      have hyq : y ≠ q := fun h => hn (by rw [he', h]; exact hs.mine.2.1)
      obtain ⟨hxl, hxp⟩ := hold x hx' hxq hno' hold'
      obtain ⟨hyl, hyp⟩ := hold y hy' hyq (he' ▸ hno') (he' ▸ hold')
      have := hp.known.unique x hxl y hyl hxy (by rw [← hxp, ← hyp, he'])
      exact hno' (hxp.trans this)

/-- The handles once a connection has logged in: its own has the new player, and the one the player
had is gone. -/
structure Handed (c : Conns) (q n : ℕ) (handles : List Shandle) : Prop where
  ids : (handles.map (·.id)).Nodup
  mem : ∀ g ∈ handles, ∃ h ∈ c.handles, g.id = h.id ∧ g.tasks = h.tasks ∧
    (h.tasks = q ∧ g.player = n ∨ h.tasks ≠ q ∧ c.tasks.findTqueue n ≠ some h.tasks ∧
      g.player = h.player)
  back : ∀ h ∈ c.handles, c.tasks.findTqueue n ≠ some h.tasks → ∃ g ∈ handles, g.tasks = h.tasks

theorem Paired.swapped {s' : Server} (hs : Swapped q n (c.tasks.findTqueue n) c.tasks s')
    {c' : Conns} (hh : c.Handed q n c'.handles) (hfresh : c'.fresh = c.fresh)
    (ht : c'.tasks = { s' with phase := .task q }) : c'.Paired := by
  have hlive := hp.login_live hphase
  have hshape := (hs.shape.keeps_phase (.task q) s'.currentTaskId fun p hq => by
    cases hq
    exact hs.shape.head q (by rw [hs.phase, hphase]; rfl)).1
  have hknown := Swapped.known hp hphase hc n hs
  have hnext : c'.tasks.nextUnconnected = c.tasks.nextUnconnected := by
    rw [ht]
    exact hs.next
  have hlive' : c'.tasks.live = s'.live := by rw [ht]
  have hqueue' : c'.tasks.queue = s'.queue := by rw [ht]
  refine ⟨ht ▸ hshape, ht ▸ hknown, ?_, hh.ids, ?_, ?_, ?_, ?_, ?_⟩
  · rw [hnext]
    exact hp.next
  · intro g hg
    obtain ⟨h, hm, hid, -⟩ := hh.mem g hg
    rw [hfresh, hid]
    exact hp.fresh h hm
  · intro g hg g' hg' he
    obtain ⟨h, hm, hid, -, hcase⟩ := hh.mem g hg
    obtain ⟨h', hm', hid', -, hcase'⟩ := hh.mem g' hg'
    rw [hid, hid']
    have hclash : ∀ {k : Shandle}, k ∈ c.handles → k.player = n →
        c.tasks.findTqueue n = some k.tasks := by
      intro k hk hkn
      obtain ⟨hkl, -, hkp⟩ := hp.queue k hk
      exact hp.found_player n hkl (hkp.trans hkn)
    rcases hcase with ⟨hq1, hn1⟩|⟨hq1, hd1, hn1⟩
    · rcases hcase' with ⟨hq2, hn2⟩|⟨hq2, hd2, hn2⟩
      · apply hp.players h hm h' hm'
        rw [← (hp.queue h hm).2.2, ← (hp.queue h' hm').2.2, hq1, hq2]
      · exact absurd (hclash hm' (hn2.symm.trans (he.symm.trans hn1))) hd2
    · rcases hcase' with ⟨hq2, hn2⟩|⟨hq2, hd2, hn2⟩
      · exact absurd (hclash hm (hn1.symm.trans (he.trans hn2))) hd1
      · exact hp.players h hm h' hm' (hn1.symm.trans (he.trans hn2))
  · intro g hg
    rw [hnext]
    obtain ⟨h, hm, -, -, ⟨-, hpl⟩|⟨-, -, hpl⟩⟩ := hh.mem g hg
    · have := hp.next
      rw [hpl]
      simp only [nobody] at this ⊢
      omega
    · rw [hpl]
      exact hp.somebody h hm
  · intro g hg
    rw [hlive', hqueue']
    obtain ⟨h, hm, -, htasks, ⟨hq, hpl⟩|⟨hq, hd, hpl⟩⟩ := hh.mem g hg
    · rw [htasks, hq, hpl]
      exact ⟨hs.mine.1, hs.mine.2.2, hs.mine.2.1⟩
    · obtain ⟨hl, hcon, hqp⟩ := hp.queue h hm
      obtain ⟨h1, h2, h3⟩ := hs.others h.tasks hl hq hd
      rw [htasks, hpl]
      exact ⟨h1, h3.trans hcon, h2.trans hqp⟩
  · intro x hx hcx
    rw [hlive'] at hx
    rw [hqueue'] at hcx
    have hd : c.tasks.findTqueue n ≠ some x := by
      intro hd
      rw [(hs.dead x hd).2] at hcx
      cases hcx
    have hxl : x ∈ c.tasks.live := by
      by_contra hn
      rw [(hs.new x hx hn).2.2] at hcx
      cases hcx
    have hcon : (c.tasks.queue x).connected = true := by
      by_cases hxq : x = q
      · rw [hxq]
        exact hc
      · rw [← (hs.others x hxl hxq hd).2.2]
        exact hcx
    obtain ⟨h, hm, rfl⟩ := hp.handle x hxl hcon
    exact hh.back h hm hd

/-- The state after the login in terms of the one after `leaveTasks`. -/
theorem Swapped.of_left (flush : Option Str) {s' : Server} (hshape : s'.Shape)
    (hnext : s'.nextUnconnected = c.tasks.nextUnconnected) (hph : s'.phase = c.tasks.phase)
    (hl : s'.live = ((c.tasks.modify q fun tq => { tq with player := n }).leaveTasks flush q
      (c.tasks.queue q).player).live)
    (hsame : ∀ x, c.tasks.findTqueue n ≠ some x →
      (s'.queue x).player = (((c.tasks.modify q fun tq => { tq with player := n }).leaveTasks flush q
        (c.tasks.queue q).player).queue x).player ∧
      (s'.queue x).connected = (((c.tasks.modify q fun tq => { tq with player := n }).leaveTasks flush
        q (c.tasks.queue q).player).queue x).connected)
    (hdead : ∀ d, c.tasks.findTqueue n = some d →
      (s'.queue d).player = nobody ∧ (s'.queue d).connected = false) :
    Swapped q n (c.tasks.findTqueue n) c.tasks s' := by
  have hlive := hp.login_live hphase
  have h1 := hp.shape.modify q (f := fun tq => { tq with player := (n : ℤ) }) fun _ => by rfl
  obtain ⟨hquiet, hstays, hnew⟩ := leaveTasks_quiet h1 flush q (c.tasks.queue q).player
  generalize leaveTasks flush q (c.tasks.queue q).player _ = s2 at hl hsame hquiet hstays hnew
  refine ⟨hshape, hnext, hph, ?_, ?_, hdead, ?_⟩
  · obtain ⟨hpl, hcon⟩ := hquiet.same q (hstays q hlive) hlive
    rw [modify_self] at hpl hcon
    obtain ⟨h2, h3⟩ := hsame q (hp.dead_ne hphase hc n)
    exact ⟨hl ▸ hstays q hlive, h2.trans hpl, h3.trans (hcon.trans hc)⟩
  · intro x hx hxq hd
    obtain ⟨hpl, hcon⟩ := hquiet.same x (hstays x hx) hx
    rw [modify_of_ne _ _ hxq] at hpl hcon
    obtain ⟨h2, h3⟩ := hsame x hd
    exact ⟨hl ▸ hstays x hx, h2.trans hpl, h3.trans hcon⟩
  · intro x hx hn
    have hx2 : x ∈ s2.live := hl ▸ hx
    have hd : c.tasks.findTqueue n ≠ some x := fun hd => hn (hp.shape.find hd).1
    obtain ⟨h2, h3⟩ := hsame x hd
    obtain ⟨hfresh, hpl⟩ := hnew x hx2 hn
    exact ⟨hfresh, h2.trans hpl, h3.trans (hquiet.new x hx2 hn).2⟩

omit hphase hc in
theorem Paired.like_find (hl : c.Like c') {h : Shandle} (hm : h ∈ c.handles) :
    ∃ h', c'.findShandle h.player = some h' ∧ h'.id = h.id ∧ h'.tasks = h.tasks := by
  obtain ⟨g, hg, -, hgp, -⟩ := hl.symm.mem hm
  obtain ⟨h', hf⟩ := findShandle_some hg
  rw [hgp] at hf
  obtain ⟨hm', hpl'⟩ := findShandle_mem hf
  obtain ⟨k, hk, hkid, hkpl, hkt⟩ := hl.mem hm'
  have : k = h := hp.unique hk hm (hp.players k hk h hm (hkpl.trans hpl'))
  subst this
  exact ⟨h', hf, hkid.symm, hkt.symm⟩

omit hphase hc in
/-- The handles where the one of the connection has the new player. -/
theorem Paired.renamed (hl : c.Like c') {new : Shandle} (hid : ∀ h ∈ c.handles,
    h.id = new.id ↔ h.tasks = q) (now : ℤ) :
    let handles := (c'.modifyShandle new.id fun h =>
      { h with player := n, connectionTime := now }).handles
    (handles.map (·.id)).Nodup ∧
      (∀ g ∈ handles, ∃ h ∈ c.handles, g.id = h.id ∧ g.tasks = h.tasks ∧
        (h.tasks = q ∧ g.player = n ∨ h.tasks ≠ q ∧ g.player = h.player)) ∧
      ∀ h ∈ c.handles, ∃ g ∈ handles, g.id = h.id ∧ g.tasks = h.tasks := by
  refine ⟨?_, ?_, ?_⟩
  · have hids : (c'.modifyShandle new.id fun h =>
        { h with player := n, connectionTime := now }).handles.map (·.id) =
        c'.handles.map (·.id) := by
      rw [modifyShandle, List.map_map]
      apply List.map_congr_left
      intro h _
      rw [Function.comp_apply]
      split <;> rfl
    rw [hids, hl.ids]
    exact hp.ids
  · intro g hg
    obtain ⟨k, hk, rfl⟩ := List.mem_map.mp hg
    obtain ⟨h, hm, hhid, hhpl, hht⟩ := hl.mem hk
    refine ⟨h, hm, ?_⟩
    by_cases hnew : k.id = new.id
    · rw [if_pos hnew]
      exact ⟨hhid.symm, hht.symm, .inl ⟨(hid h hm).mp (hhid.trans hnew), rfl⟩⟩
    · rw [if_neg hnew]
      refine ⟨hhid.symm, hht.symm, .inr ⟨?_, hhpl.symm⟩⟩
      intro hq
      exact hnew (hhid.symm.trans ((hid h hm).mpr hq))
  · intro h hm
    obtain ⟨k, hk, hkid, -, hkt⟩ := hl.symm.mem hm
    refine ⟨_, List.mem_map_of_mem hk, ?_⟩
    split
    · exact ⟨hkid, hkt⟩
    · exact ⟨hkid, hkt⟩

omit hphase hc in
theorem Paired.player_tasks {h : Shandle} (hm : h ∈ c.handles) :
    h.player = n ↔ c.tasks.findTqueue n = some h.tasks := by
  obtain ⟨hl, -, hpl⟩ := hp.queue h hm
  constructor
  · intro he
    exact hp.found_player n hl (hpl.trans he)
  · intro hf
    exact hpl.symm.trans (hp.shape.find hf).2

/-- The handle of the connection is found, and so is the one that the player had. -/
theorem Paired.playerConnected (flush : Option Str) (now : ℤ) (hl : c.Like c')
    (hshape : c'.tasks.Shape) (hnext : c'.tasks.nextUnconnected = c.tasks.nextUnconnected)
    (hph : c'.tasks.phase = c.tasks.phase)
    (hlive : c'.tasks.live = ((c.tasks.modify q fun tq => { tq with player := n }).leaveTasks flush q
      (c.tasks.queue q).player).live)
    (hsame : ∀ x, c.tasks.findTqueue n ≠ some x → (c'.tasks.queue x).player =
      (((c.tasks.modify q fun tq => { tq with player := n }).leaveTasks flush q
        (c.tasks.queue q).player).queue x).player ∧
      (c'.tasks.queue x).connected = (((c.tasks.modify q fun tq => { tq with player := n }).leaveTasks
        flush q (c.tasks.queue q).player).queue x).connected)
    (hdead : ∀ d, c.tasks.findTqueue n = some d → (c'.tasks.queue d).player = nobody ∧
      (c'.tasks.queue d).connected = (c.tasks.queue d).connected) :
    Safe Paired (do
      let c ← c'.playerConnected (c.tasks.queue q).player n now
      .ok { c with tasks := { c.tasks with phase := .task q } }) := by
  obtain ⟨h0, hm0, hq0⟩ := hp.handle q (hp.login_live hphase) hc
  have hold : h0.player = (c.tasks.queue q).player := by rw [← hq0, (hp.queue h0 hm0).2.2]
  obtain ⟨new, hfnew, hnid, -⟩ := hp.like_find hl hm0
  rw [hold] at hfnew
  have hid : ∀ h ∈ c.handles, h.id = new.id ↔ h.tasks = q := by
    intro h hm
    rw [hnid]
    constructor
    · intro he
      rw [hp.unique hm hm0 he]
      exact hq0
    · intro ht
      apply hp.players h hm h0 hm0
      rw [← (hp.queue h hm).2.2, ht, hold]
  obtain ⟨hids, hmem, hback⟩ := hp.renamed n hl hid now
  unfold Conns.playerConnected
  rw [hfnew]
  dsimp only at hids hmem hback ⊢
  cases hex : c'.findShandle n with
  | none =>
    have hno : ∀ h ∈ c.handles, c.tasks.findTqueue n ≠ some h.tasks := by
      intro h hm hf
      obtain ⟨h', hf', -⟩ := hp.like_find hl hm
      rw [(hp.player_tasks n hm).mpr hf, hex] at hf'
      cases hf'
    have hsw : Swapped q n (c.tasks.findTqueue n) c.tasks c'.tasks := by
      refine Swapped.of_left hp hphase hc n flush hshape hnext hph hlive hsame fun d hd => ?_
      obtain ⟨h1, h2⟩ := hdead d hd
      refine ⟨h1, ?_⟩
      rw [h2, Bool.eq_false_iff]
      intro hcd
      obtain ⟨h, hm, rfl⟩ := hp.handle d (hp.shape.find hd).1 hcd
      exact hno h hm hd
    refine Safe.of_ok (hp.swapped hphase hc n hsw ⟨hids, ?_, ?_⟩ hl.fresh rfl)
    · intro g hg
      obtain ⟨h, hm, h1, h2, h3⟩ := hmem g hg
      refine ⟨h, hm, h1, h2, h3.imp id fun h4 => ⟨h4.1, hno h hm, h4.2⟩⟩
    · intro h hm _
      obtain ⟨g, hg, -, ht⟩ := hback h hm
      exact ⟨g, hg, ht⟩
  | some e =>
    obtain ⟨hme, hpe⟩ := findShandle_mem hex
    obtain ⟨k, hmk, hkid, hkpl, hkt⟩ := hl.mem hme
    have hfk := (hp.player_tasks n hmk).mp (hkpl.trans hpe)
    have hgone : ∀ h ∈ c.handles, h.id = e.id ↔ c.tasks.findTqueue n = some h.tasks := by
      intro h hm
      rw [← hkid]
      constructor
      · intro he
        rw [hp.unique hm hmk he]
        exact hfk
      · intro hf
        apply hp.players h hm k hmk
        rw [(hp.player_tasks n hm).mpr hf, hkpl, hpe]
    refine Safe.bind (P := fun c5 => ({ c5 with tasks := { c5.tasks with phase := .task q } } :
      Conns).Paired) ?_ fun c5 _ h5 => Safe.of_ok h5
    refine (Safe.bind (freeTaskQueue_players hshape e.tasks) (Q := fun c5 =>
      c.Handed q n c5.handles ∧ c5.fresh = c.fresh ∧
        Swapped q n (c.tasks.findTqueue n) c.tasks c5.tasks) ?_).bind ?_
    · rintro s hclose ⟨hs, hplayers⟩
      have hd : c.tasks.findTqueue n = some e.tasks := by rw [hfk, hkt]
      refine Safe.of_ok ⟨⟨?_, ?_, ?_⟩, hl.fresh, ?_⟩
      · exact hids.sublist (List.filter_sublist.map _)
      · intro g hg
        obtain ⟨hg, hgid⟩ := List.mem_filter.mp hg
        obtain ⟨h, hm, h1, h2, h3⟩ := hmem g hg
        have hne : c.tasks.findTqueue n ≠ some h.tasks := by
          intro hf
          rw [h1, (hgone h hm).mpr hf] at hgid
          simp at hgid
        exact ⟨h, hm, h1, h2, h3.imp id fun h4 => ⟨h4.1, hne, h4.2⟩⟩
      · intro h hm hf
        obtain ⟨g, hg, hgid, ht⟩ := hback h hm
        refine ⟨g, List.mem_filter.mpr ⟨hg, ?_⟩, ht⟩
        rw [hgid]
        simpa using fun he => hf ((hgone h hm).mp he)
      · refine Swapped.of_left hp hphase hc n flush hs ?_ ?_ ?_ ?_ ?_
        · exact hplayers.next.trans hnext
        · exact (freeTaskQueue_phase hshape hclose).trans hph
        · exact hplayers.live.trans hlive
        · intro x hx
          have hxe : x ≠ e.tasks := fun he => hx (he ▸ hd)
          obtain ⟨h1, h2⟩ := hsame x hx
          refine ⟨(hplayers.player x).trans ?_, (hplayers.connected x).trans ?_⟩
          · rw [modify_of_ne _ _ hxe]
            exact h1
          · rw [modify_of_ne _ _ hxe]
            exact h2
        · intro d hd'
          obtain rfl := Option.some.inj (hd.symm.trans hd')
          refine ⟨(hplayers.player _).trans ?_, (hplayers.connected _).trans ?_⟩
          · rw [modify_self]
            exact (hdead _ hd).1
          · rw [modify_self]
    · rintro c5 - ⟨hh, hf5, hs5⟩
      apply Safe.of_ok
      split
      · exact hp.swapped hphase hc n hs5 hh hf5 rfl
      · have h5 : ({ c5 with tasks := { c5.tasks with phase := .task q } } : Conns).Paired :=
          hp.swapped hphase hc n hs5 hh hf5 rfl
        have hlike := modifyShandle_like c5 new.id (f := fun h => { h with disconnectMe := false })
          fun _ => by rfl
        exact h5.quiet ⟨hlike.faces, hlike.fresh⟩ h5.shape Quiet.rfl

theorem Paired.loginUser (flush : Option Str) (now : ℤ) :
    Safe Paired (c.login flush (some n) now) := by
  have h1 := hp.shape.modify q (f := fun tq => { tq with player := (n : ℤ) }) fun _ => by rfl
  have h2 := leaveTasks_shape h1 flush q (c.tasks.queue q).player
  have hph := leaveTasks_phase h1 flush q (c.tasks.queue q).player
  obtain ⟨hquiet, hstays, -⟩ := leaveTasks_quiet h1 flush q (c.tasks.queue q).player
  unfold Conns.login
  rw [hphase]
  dsimp only
  rw [if_pos hc]
  cases hf : c.tasks.findTqueue n with
  | none =>
    have hl : c.Like ⟨c.handles, c.fresh, leaveTasks flush q (c.tasks.queue q).player
      (c.tasks.modify q fun tq => { tq with player := n }), c.suspended⟩ := ⟨rfl, rfl⟩
    refine hp.playerConnected hphase hc n flush now hl h2 hquiet.next hph rfl
      (fun _ _ => ⟨rfl, rfl⟩) fun d hd => ?_
    rw [hf] at hd
    cases hd
  | some d =>
    obtain ⟨hdl, hdn⟩ := hp.shape.find hf
    have hdq : d ≠ q := by
      rintro rfl
      exact hp.dead_ne hphase hc n hf
    obtain ⟨hdp, hdc⟩ := hquiet.same d (hstays d hdl) hdl
    rw [modify_of_ne _ _ hdq] at hdp hdc
    have hflush := flushInput_players d (leaveTasks flush q (c.tasks.queue q).player
      (c.tasks.modify q fun tq => { tq with player := n }))
    have hshape := takeOver_shape (flushInput_keeps h2 d).1 q d
    have htaken := takeOver_players q d (flushInput d (leaveTasks flush q (c.tasks.queue q).player
      (c.tasks.modify q fun tq => { tq with player := n })))
    -- while its lines are thrown away, the old queue still has the player of the old handle
    refine (settle_like (c := ⟨c.handles, c.fresh, leaveTasks flush q (c.tasks.queue q).player
      (c.tasks.modify q fun tq => { tq with player := n }), c.suspended⟩) fun hcd => ?_).bind ?_
    · rw [hflush.connected, hdc] at hcd
      rw [hflush.player, hdp]
      obtain ⟨h, hh, -⟩ := hp.find hdl hcd
      exact ⟨h, hh⟩
    · rintro c3 - ⟨hl, ht⟩
      have hl' : c.Like { c3 with tasks := c3.tasks.takeOver q d } := ⟨hl.faces, hl.fresh⟩
      refine hp.playerConnected hphase hc n flush now hl' (ht ▸ hshape) ?_ ?_ ?_ ?_ ?_
      · rw [ht, htaken.next]
        exact hflush.next.trans hquiet.next
      · rw [ht]
        exact hph
      · rw [ht, htaken.live]
        exact hflush.live
      · intro x hx
        have hxd : x ≠ d := fun he => hx (he ▸ hf)
        rw [ht, htaken.player, htaken.connected, modify_of_ne _ _ hxd, hflush.player,
          hflush.connected]
        exact ⟨rfl, rfl⟩
      · intro d' hd'
        obtain rfl := Option.some.inj (hf.symm.trans hd')
        rw [ht, htaken.player, htaken.connected, modify_self]
        refine ⟨rfl, ?_⟩
        exact (hflush.connected d).trans hdc

end Login

theorem Paired.phase_task (hp : c.Paired) (hphase : c.tasks.phase = .login q) :
    ({ c with tasks := { c.tasks with phase := .task q } } : Conns).Paired := by
  refine hp.quiet ⟨rfl, rfl⟩ ?_ (SamePlayers.phase c.tasks _ _ fun _ hq => by cases hq).quiet
  refine (hp.shape.keeps_phase (.task q) c.tasks.currentTaskId ?_).1
  intro p hq
  cases hq
  exact hp.shape.head q (by rw [hphase]; rfl)

theorem Paired.login (hp : c.Paired) (flush : Option Str) (user : Option ℕ) (now : ℤ) :
    Safe Paired (c.login flush user now) := by
  cases hphase : c.tasks.phase with
  | rest =>
    simp only [Conns.login, hphase]
    exact Safe.of_ok hp
  | task q =>
    simp only [Conns.login, hphase]
    exact Safe.of_ok hp
  | login q =>
    cases user with
    | none =>
      simp only [Conns.login, hphase]
      exact Safe.of_ok (hp.phase_task hphase)
    | some n =>
      by_cases hc : (c.tasks.queue q).connected = true
      · exact hp.loginUser hphase hc n flush now
      · simp only [Conns.login, hphase]
        rw [if_neg hc]
        exact Safe.of_ok (hp.phase_task hphase)

end Conns

end LambdaMoo.Connections
