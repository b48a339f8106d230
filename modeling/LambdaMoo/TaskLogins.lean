import LambdaMoo.TaskLimits

/-!
# The counts through a login

A connection that logs in leaves its own tasks to a new queue for its old
player number, and takes over the tasks of the queue that its player had.
-/

set_option autoImplicit false

namespace LambdaMoo.Tasks

namespace Server

variable {s s' : Server} {q : ℕ}

/-- What is left once the connection's own tasks have been put aside. -/
structure Left (q : ℕ) (n : ℤ) (s s' : Server) : Prop where
  waiting : s'.waiting = s.waiting
  next : s'.nextUnconnected = s.nextUnconnected
  player : (s'.queue q).player = n
  bg : (s'.queue q).bg = []
  numBgTasks : (s'.queue q).numBgTasks = 0
  old : ∀ x ∈ s.live, x ≠ q → s'.queue x = s.queue x
  live : s'.live = s.live ∧ (s.queue q).numBgTasks = 0 ∨
    ∃ o, o ∉ s.live ∧ s'.live = o::s.live ∧ (s'.queue o).player = (s.queue q).player ∧
      (s'.queue o).bg = (s.queue q).bg ∧ (s'.queue o).numBgTasks = (s.queue q).numBgTasks ∧
      (s'.queue o).connected = false

theorem Counted.bg_nil (h : Counted s) (hq : q ∈ s.live) (hn : (s.queue q).numBgTasks = 0) :
    (s.queue q).bg = [] := by
  have hc := h.count q hq
  apply List.length_eq_zero_iff.mp
  omega

/-- The tasks of a queue in a new one, and the queue without them. -/
structure Moved (q o : ℕ) (num : ℤ) (s s' : Server) : Prop where
  waiting : s'.waiting = s.waiting
  next : s'.nextUnconnected = s.nextUnconnected
  live : s'.live = s.live
  source : s'.queue q = {s.queue q with bg := [], numBgTasks := 0}
  target : s'.queue o = {s.queue o with bg := (s.queue o).bg ++ (s.queue q).bg, numBgTasks := num}
  old : ∀ x, x ≠ q → x ≠ o → s'.queue x = s.queue x

theorem moved (s : Server) {o : ℕ} (num : ℤ) (ho : o ≠ q) :
    Moved q o num s (((s.modify o fun tq => {tq with numBgTasks := num}).moveBg q o).modify q
      fun tq => {tq with numBgTasks := 0}) := by
  refine ⟨rfl, rfl, rfl, ?_, ?_, ?_⟩
  · rw [modify_self, moveBg, modify_of_ne _ _ ho.symm, modify_self, modify_of_ne _ _ ho.symm]
  · rw [modify_of_ne _ _ ho, moveBg, modify_self, modify_of_ne _ _ ho, modify_self,
      modify_of_ne _ _ ho.symm]
  · intro x hxq hxo
    rw [modify_of_ne _ _ hxq, moveBg, modify_of_ne _ _ hxo, modify_of_ne _ _ hxq,
      modify_of_ne _ _ hxo]

theorem leaveTasks_left (h : Counted s) (hs : Shape s) (flush : Option Str) (hq : q ∈ s.live)
    {n : ℤ} (hp : (s.queue q).player ≠ nobody) (hn : n ≠ (s.queue q).player) :
    Left q n s ((s.modify q fun tq => {tq with player := n}).leaveTasks flush q
      (s.queue q).player) := by
  have hs1 : Shape (s.modify q fun tq => {tq with player := n}) := hs.modify q fun _ => by rfl
  have hnum : ((s.modify q fun tq => {tq with player := n}).queue q).numBgTasks =
      (s.queue q).numBgTasks := by
    rw [modify_self]
  unfold leaveTasks
  rw [hnum]
  split
  · next hne =>
    have ho := hs1.obtain flush (s.queue q).player
    have hnone : ∀ x ∈ s.live, ((s.modify q fun tq => {tq with player := n}).queue x).player ≠
        (s.queue q).player := by
      intro x hx he
      by_cases hxq : x = q
      · rw [hxq, modify_self] at he
        exact hn he
      · rw [modify_of_ne _ s hxq] at he
        exact hp (he ▸ (h.unique x hx q hq hxq he).1)
    generalize obtainTqueue flush (s.queue q).player _ = r at ho ⊢
    rcases ho.found with ⟨hf, -⟩ | ⟨-, hr, hlive, -, hnew⟩
    · have hfound := hs1.find hf
      exact absurd hfound.2 (hnone r.1 hfound.1)
    · have hfresh : s.fresh ∉ s.live := fun hm => (hs.fresh _ hm).ne rfl
      have hqf : s.fresh ≠ q := fun he => hfresh (he ▸ hq)
      have hnew' : r.2.queue s.fresh = newTQueue (s.queue q).player flush := hnew
      dsimp only
      rw [show r.1 = s.fresh from hr]
      have hm := moved r.2 (s.queue q).numBgTasks hqf
      have hqr : r.2.queue q = {s.queue q with player := n} := by
        rw [ho.queue q hq, modify_self]
      refine ⟨hm.waiting.trans ho.waiting, hm.next.trans ho.nextUnconnected, ?_, ?_, ?_, ?_, ?_⟩
      · rw [hm.source, hqr]
      · rw [hm.source]
      · rw [hm.source]
      · intro x hx hxq
        have hxf : x ≠ s.fresh := fun he => hfresh (he ▸ hx)
        rw [hm.old x hxq hxf, ho.queue x hx, modify_of_ne _ s hxq]
      · right
        refine ⟨s.fresh, hfresh, hm.live.trans hlive, ?_, ?_, ?_, ?_⟩
        · rw [hm.target, hnew']
          rfl
        · rw [hm.target, hnew', hqr]
          rfl
        · rw [hm.target]
        · rw [hm.target, hnew']
          rfl
  · next hz =>
    rw [not_not] at hz
    refine ⟨rfl, rfl, ?_, ?_, ?_, ?_, .inl ⟨rfl, hz⟩⟩
    · rw [modify_self]
    · rw [modify_self]
      exact h.bg_nil hq hz
    · rw [modify_self]
      exact hz
    · intro x _ hxq
      exact modify_of_ne _ s hxq

/-- What becomes of the queue that is taken over, and of the one that takes over. -/
structure Taken (q d : ℕ) (s s' : Server) : Prop where
  waiting : s'.waiting = s.waiting
  next : s'.nextUnconnected = s.nextUnconnected
  live : s'.live = s.live
  heir : s'.queue q = {s.queue q with
    bg := (s.queue q).bg ++ (s.queue d).bg, numBgTasks := (s.queue d).numBgTasks}
  dead : s'.queue d = {s.queue d with
    player := nobody, input := [], bg := [], numBgTasks := 0}
  old : ∀ x, x ≠ q → x ≠ d → s'.queue x = s.queue x

theorem takeOver_taken (s : Server) {d : ℕ} (hd : d ≠ q) : Taken q d s (s.takeOver q d) := by
  unfold takeOver flushInput
  refine ⟨rfl, rfl, rfl, ?_, ?_, ?_⟩
  · dsimp only
    rw [modify_of_ne _ _ hd.symm, moveBg, modify_self, modify_of_ne _ _ hd.symm,
      modify_of_ne _ _ hd.symm, modify_self, modify_self, modify_of_ne _ _ hd]
  · dsimp only
    rw [modify_self, moveBg, modify_of_ne _ _ hd, modify_self, modify_self, modify_of_ne _ _ hd]
  · intro x hxq hxd
    dsimp only
    rw [modify_of_ne _ _ hxd, moveBg, modify_of_ne _ _ hxq, modify_of_ne _ _ hxd,
      modify_of_ne _ _ hxd, modify_of_ne _ _ hxq]

/-- The books after a login: the connection has its player's tasks, a new queue may have the
ones of the old player number, and the queue that was taken over has none. -/
structure LoggedIn (q : ℕ) (n : ℤ) (dead : Option ℕ) (s s' : Server) : Prop where
  waiting : s'.waiting = s.waiting
  next : s'.nextUnconnected = s.nextUnconnected
  phase : ∀ x, s'.phase ≠ .login x
  player : (s'.queue q).player = n
  owned : ∀ t ∈ (s'.queue q).bg, t.progr = n
  count : (s'.queue q).numBgTasks = (s'.queue q).bg.length+tasksOf s.waiting n
  old : ∀ x ∈ s.live, x ≠ q → dead ≠ some x → s'.queue x = s.queue x
  other : ∀ x ∈ s.live, x ≠ q → dead ≠ some x → (s.queue x).player ≠ n
  taken : ∀ d, dead = some d → (s.queue d).player = n ∧ (s'.queue d).player = nobody ∧
    (s'.queue d).bg = [] ∧ (s'.queue d).numBgTasks = 0 ∧ (s'.queue d).connected = false
  quiet : dead ≠ none → NoneForNobody s
  live : s'.live = s.live ∧ (s.queue q).numBgTasks = 0 ∨
    ∃ o, o ∉ s.live ∧ s'.live = o::s.live ∧ (s'.queue o).player = (s.queue q).player ∧
      (s'.queue o).bg = (s.queue q).bg ∧ (s'.queue o).numBgTasks = (s.queue q).numBgTasks ∧
      (s'.queue o).connected = false

/-- The kinds of queue there are after a login. -/
inductive Kinds (q : ℕ) (dead : Option ℕ) (s s' : Server) (x : ℕ) : Prop where
  | heir (h : x = q)
  | dead (h : dead = some x)
  | old (h : x ∈ s.live) (hq : x ≠ q) (hd : dead ≠ some x)
  | new (h : x ∉ s.live) (player : (s'.queue x).player = (s.queue q).player)
    (bg : (s'.queue x).bg = (s.queue q).bg)
    (num : (s'.queue x).numBgTasks = (s.queue q).numBgTasks)
    (connected : (s'.queue x).connected = false)

theorem LoggedIn.kinds {n : ℤ} {dead : Option ℕ} (hl : LoggedIn q n dead s s') {x : ℕ}
    (hx : x ∈ s'.live) : Kinds q dead s s' x := by
  have hold : x ∈ s.live → Kinds q dead s s' x := by
    intro hx
    by_cases hxq : x = q
    · exact .heir hxq
    · by_cases hxd : dead = some x
      · exact .dead hxd
      · exact .old hx hxq hxd
  rcases hl.live with ⟨he, -⟩ | ⟨o, ho, he, hp, hb, hn, hc⟩
  · exact hold (he ▸ hx)
  · rw [he] at hx
    rcases List.mem_cons.mp hx with rfl | hx
    · exact .new ho hp hb hn hc
    · exact hold hx

theorem LoggedIn.live_mono {n : ℤ} {dead : Option ℕ} (hl : LoggedIn q n dead s s') {x : ℕ}
    (hx : x ∈ s.live) : x ∈ s'.live := by
  rcases hl.live with ⟨he, -⟩ | ⟨o, -, he, -⟩
  · exact he ▸ hx
  · rw [he]
    exact List.mem_cons_of_mem _ hx

/-- Where a task of the old player number waits, its queue is there. -/
theorem LoggedIn.left {n : ℤ} {dead : Option ℕ} (hl : LoggedIn q n dead s s') (h : Counted s)
    (hq : q ∈ s.live) {t : Task} (ht : t ∈ s.waiting) (htq : (s.queue q).player = t.progr) :
    ∃ o ∈ s'.live, (s'.queue o).player = t.progr := by
  rcases hl.live with ⟨-, hz⟩ | ⟨o, -, he, hp, -⟩
  · have hc := h.count q hq
    have hpos : 0 < tasksOf s.waiting (s.queue q).player := tasksOf_pos.mpr ⟨t, ht, htq.symm⟩
    omega
  · exact ⟨o, he ▸ List.mem_cons_self, hp.trans htq⟩

theorem LoggedIn.none_for_nobody {n : ℤ} {dead : Option ℕ} (hl : LoggedIn q n dead s s')
    (hp : (s.queue q).player ≠ nobody) (hn : 0 ≤ n) (hno : NoneForNobody s) :
    NoneForNobody s' := by
  refine ⟨by rw [hl.waiting]; exact hno.waiting, ?_⟩
  intro x hx hxn
  cases hl.kinds hx with
  | heir hx =>
    rw [hx, hl.player] at hxn
    exact absurd (hxn ▸ hn) (by decide)
  | dead hd => exact (hl.taken x hd).2.2.1
  | old hx hxq hxd =>
    rw [hl.old x hx hxq hxd] at hxn ⊢
    exact hno.bg x hx hxn
  | new _ hxp _ _ _ => exact absurd (hxp.symm.trans hxn) hp

/-- The player is the connection's alone. -/
theorem LoggedIn.heir_alone {n : ℤ} {dead : Option ℕ} (hl : LoggedIn q n dead s s')
    (hneg : (s.queue q).player < 0) (hn : 0 ≤ n) {x : ℕ} (hx : x ∈ s'.live)
    (hxn : (s'.queue x).player = n) : x = q := by
  cases hl.kinds hx with
  | heir hx => exact hx
  | dead hd =>
    have := (hl.taken x hd).2.1
    rw [hxn] at this
    exact absurd (this ▸ hn) (by decide)
  | old hx hxq hxd =>
    rw [hl.old x hx hxq hxd] at hxn
    exact absurd hxn (hl.other x hx hxq hxd)
  | new _ hp _ _ _ =>
    rw [hp] at hxn
    omega

/-- And the old player number is that of the new queue alone. -/
theorem LoggedIn.left_alone {n : ℤ} {dead : Option ℕ} (hl : LoggedIn q n dead s s') (h : Counted s)
    (hq : q ∈ s.live) (hp : (s.queue q).player ≠ nobody) (hneg : (s.queue q).player < 0)
    (hn : 0 ≤ n) {x : ℕ} (hx : x ∈ s'.live)
    (hxp : (s'.queue x).player = (s.queue q).player) : x ∉ s.live := by
  intro hxl
  cases hl.kinds hx with
  | heir hx =>
    rw [hx, hl.player] at hxp
    omega
  | dead hd => exact hp (hxp.symm.trans (hl.taken x hd).2.1)
  | old _ hxq hxd =>
    rw [hl.old x hxl hxq hxd] at hxp
    exact hp (hxp ▸ (h.unique x hxl q hq hxq hxp).1)
  | new hx _ _ _ _ => exact hx hxl

theorem LoggedIn.new_unique {n : ℤ} {dead : Option ℕ} (hl : LoggedIn q n dead s s') {x y : ℕ}
    (hx : x ∈ s'.live) (hy : y ∈ s'.live) (hxl : x ∉ s.live) (hyl : y ∉ s.live) : x = y := by
  rcases hl.live with ⟨he, -⟩ | ⟨o, -, he, -⟩
  · exact absurd (he ▸ hx) hxl
  · rw [he] at hx hy
    exact ((List.mem_cons.mp hx).resolve_right hxl).trans
      ((List.mem_cons.mp hy).resolve_right hyl).symm

theorem LoggedIn.unique {n : ℤ} {dead : Option ℕ} (hl : LoggedIn q n dead s s') (h : Counted s)
    (hq : q ∈ s.live) (hp : (s.queue q).player ≠ nobody) (hneg : (s.queue q).player < 0)
    (hn : 0 ≤ n) {x y : ℕ} (hx : x ∈ s'.live) (hy : y ∈ s'.live) (hne : x ≠ y)
    (he : (s'.queue x).player = (s'.queue y).player) :
    (s'.queue x).player = nobody ∧ NoneForNobody s' := by
  cases hl.kinds hx with
  | heir hxq =>
    have hyn : (s'.queue y).player = n := by rw [← he, hxq, hl.player]
    exact absurd (hxq.trans (hl.heir_alone hneg hn hy hyn).symm) hne
  | new hxl hxp _ _ _ =>
    have hyl := hl.left_alone h hq hp hneg hn hy (he.symm.trans hxp)
    exact absurd (hl.new_unique hx hy hxl hyl) hne
  | dead hd => exact ⟨(hl.taken x hd).2.1, hl.none_for_nobody hp hn (hl.quiet (by simp [hd]))⟩
  | old hxl hxq hxd =>
    cases hl.kinds hy with
    | heir hyq =>
      have hxn : (s'.queue x).player = n := by rw [he, hyq, hl.player]
      exact absurd (hl.heir_alone hneg hn hx hxn) hxq
    | new hyl hyp _ _ _ => exact absurd hxl (hl.left_alone h hq hp hneg hn hx (he.trans hyp))
    | dead hd =>
      exact ⟨he.trans (hl.taken y hd).2.1, hl.none_for_nobody hp hn (hl.quiet (by simp [hd]))⟩
    | old hyl hyq hyd =>
      rw [hl.old x hxl hxq hxd, hl.old y hyl hyq hyd] at he
      obtain ⟨hxn, hno⟩ := h.unique x hxl y hyl hne he
      exact ⟨by rw [hl.old x hxl hxq hxd]; exact hxn, hl.none_for_nobody hp hn hno⟩

theorem LoggedIn.counted {n : ℤ} {dead : Option ℕ} (hl : LoggedIn q n dead s s') (h : Counted s)
    (hq : q ∈ s.live) (hp : (s.queue q).player ≠ nobody) (hneg : (s.queue q).player < 0)
    (hn : 0 ≤ n) : Counted s' := by
  have hnn : n ≠ nobody := by
    intro he
    exact absurd (he ▸ hn) (by decide)
  refine ⟨?_, ?_, ?_, ?_, ?_, fun x hx => absurd hx (hl.phase x), hl.next ▸ h.next⟩
  · intro x hx
    rw [hl.waiting]
    cases hl.kinds hx with
    | heir hx =>
      rw [hx, hl.player]
      exact hl.count
    | dead hd =>
      obtain ⟨-, hp, hb, hn, -⟩ := hl.taken x hd
      have hz : tasksOf s.waiting nobody = 0 := by
        by_contra hne
        obtain ⟨t, ht, htp⟩ := tasksOf_pos.mp (Nat.pos_of_ne_zero hne)
        exact (hl.quiet (by simp [hd])).waiting t ht htp
      rw [hp, hb, hn, hz]
      rfl
    | old hx hxq hxd =>
      rw [hl.old x hx hxq hxd]
      exact h.count x hx
    | new _ hxp hb hn _ =>
      rw [hxp, hb, hn]
      exact h.count q hq
  · intro x hx t ht
    cases hl.kinds hx with
    | heir hx =>
      rw [hx] at ht ⊢
      rw [hl.player]
      exact hl.owned t ht
    | dead hd =>
      rw [(hl.taken x hd).2.2.1] at ht
      cases ht
    | old hx hxq hxd =>
      rw [hl.old x hx hxq hxd] at ht ⊢
      exact h.owned x hx t ht
    | new _ hxp hb _ _ =>
      rw [hb] at ht
      rw [hxp]
      exact h.owned q hq t ht
  · intro t ht
    rw [hl.waiting] at ht
    obtain ⟨x, hx, hxt⟩ := h.home t ht
    by_cases hxq : x = q
    · exact hl.left h hq ht (hxq ▸ hxt)
    · by_cases hxd : dead = some x
      · exact ⟨q, hl.live_mono hq, hl.player.trans ((hl.taken x hxd).1.symm.trans hxt)⟩
      · exact ⟨x, hl.live_mono hx, by rw [hl.old x hx hxq hxd]; exact hxt⟩
  · exact fun x hx y hy hne he => hl.unique h hq hp hneg hn hx hy hne he
  · intro x hx hc
    cases hl.kinds hx with
    | heir hx =>
      rw [hx, hl.player]
      exact hnn
    | dead hd =>
      rw [(hl.taken x hd).2.2.2.2] at hc
      cases hc
    | old hx hxq hxd =>
      rw [hl.old x hx hxq hxd] at hc ⊢
      exact h.somebody x hx hc
    | new _ hxp _ _ _ =>
      rw [hxp]
      exact hp

end Server

end LambdaMoo.Tasks
