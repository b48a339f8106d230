import Mathlib.Data.List.Basic
import Mathlib.Data.Set.Basic

/-!
# Grammars whose rules act

A token has a kind and a value. A rule rewrites a nonterminal, and once its
right side is recognised its action runs on the values of that side, on the
values to its left in the rule around it, and on the state of the parse; this
is the order in which a bottom-up parser reduces, and a rule with an empty
right side is an action in the middle of another rule. `Derives` reads a list
of symbols off the front of the input, whatever decides between the rules.
-/

set_option autoImplicit false

namespace LambdaMoo.Grammar

inductive Symbol (K N : Type) where
  | token (k : K)
  | node (n : N)
  deriving DecidableEq, Repr

structure Token (K V : Type) where
  kind : K
  val : V
  deriving DecidableEq, Repr

/-- The values to the left come with the nearest one first. -/
structure Rules (K N R V S : Type) where
  lhs : R → N
  rhs : R → List (Symbol K N)
  action : R → (left : List V) → List V → S → Option (V × S)

/-- A derivation of some size. -/
inductive Derivation {K N R V S : Type} (G : Rules K N R V S) : ℕ → List V →
    List (Symbol K N) → S → List (Token K V) → List V → S → List (Token K V) → Prop
  | nil {left : List V} {s : S} {i : List (Token K V)} : Derivation G 0 left [] s i [] s i
  | token {m : ℕ} {left vs : List V} {γ : List (Symbol K N)} {s s' : S}
      {i j : List (Token K V)} (t : Token K V) (h : Derivation G m (t.val::left) γ s i vs s' j) :
      Derivation G (m+1) left (.token t.kind::γ) s (t::i) (t.val::vs) s' j
  | node {m m' : ℕ} {left us vs : List V} {v : V} {γ : List (Symbol K N)} {s s₁ s₂ s' : S}
      {i j k : List (Token K V)} {n : N} (r : R) (hr : G.lhs r = n)
      (h : Derivation G m [] (G.rhs r) s i us s₁ j)
      (ha : G.action r left us s₁ = some (v, s₂))
      (hs : Derivation G m' (v::left) γ s₂ j vs s' k) :
      Derivation G (m+m'+1) left (.node n::γ) s i (v::vs) s' k

variable {K N R V S : Type} {G : Rules K N R V S}

def Derives (G : Rules K N R V S) (left : List V) (γ : List (Symbol K N)) (s : S)
    (i : List (Token K V)) (vs : List V) (s' : S) (j : List (Token K V)) : Prop :=
  ∃ m, Derivation G m left γ s i vs s' j

namespace Derives
variable {left vs : List V} {γ : List (Symbol K N)} {s s' : S} {i j : List (Token K V)}

theorem nil : Derives G left [] s i [] s i := ⟨0, .nil⟩

theorem token (t : Token K V) (h : Derives G (t.val::left) γ s i vs s' j) :
    Derives G left (.token t.kind::γ) s (t::i) (t.val::vs) s' j := by
  obtain ⟨m, h⟩ := h
  exact ⟨m+1, .token t h⟩

theorem node {us : List V} {v : V} {s₁ s₂ : S} {k : List (Token K V)} (r : R)
    (h : Derives G [] (G.rhs r) s i us s₁ j) (ha : G.action r left us s₁ = some (v, s₂))
    (hs : Derives G (v::left) γ s₂ j vs s' k) :
    Derives G left (.node (G.lhs r)::γ) s i (v::vs) s' k := by
  obtain ⟨m, h⟩ := h
  obtain ⟨m', hs⟩ := hs
  exact ⟨m+m'+1, .node r rfl h ha hs⟩

theorem append {ws : List V} {δ : List (Symbol K N)} {s'' : S} {k : List (Token K V)}
    (h : Derives G left γ s i vs s' j)
    (h' : Derives G (vs.reverse ++ left) δ s' j ws s'' k) :
    Derives G left (γ ++ δ) s i (vs ++ ws) s'' k := by
  obtain ⟨m, h⟩ := h
  induction h with
  | nil => exact h'
  | token t h ih => exact .token t (ih (by simpa using h'))
  | node r hr h ha hs _ ih => exact hr ▸ .node r ⟨_, h⟩ ha (ih (by simpa using h'))

end Derives

namespace Derivation
variable {m : ℕ} {left vs : List V} {γ : List (Symbol K N)} {s s' : S} {i j : List (Token K V)}

theorem done (h : Derivation G m left [] s i vs s' j) : vs = [] ∧ s' = s ∧ j = i := by
  cases h
  exact ⟨rfl, rfl, rfl⟩

theorem shift {k : K} (h : Derivation G m left (.token k::γ) s i vs s' j) :
    ∃ t i' vs' m', t.kind = k ∧ i = t::i' ∧ vs = t.val::vs' ∧ m' < m ∧
      Derivation G m' (t.val::left) γ s i' vs' s' j := by
  cases h with
  | token t h => exact ⟨t, _, _, _, rfl, rfl, rfl, Nat.lt_succ_self _, h⟩

theorem reduce {n : N} (h : Derivation G m left (.node n::γ) s i vs s' j) :
    ∃ r us v vs' s₁ s₂ i' m₁ m₂, G.lhs r = n ∧ m₁ < m ∧ Derivation G m₁ [] (G.rhs r) s i us s₁ i' ∧
      G.action r left us s₁ = some (v, s₂) ∧ vs = v::vs' ∧ m₂ < m ∧
      Derivation G m₂ (v::left) γ s₂ i' vs' s' j := by
  cases h with
  | node r hr h ha hs =>
    exact ⟨r, _, _, _, _, _, _, _, _, hr, by omega, h, ha, rfl, by omega, hs⟩

/-- What a nonterminal among `P`, none of which is empty, can start with. -/
theorem first {F : N → Set K} {P : Set N}
    (hF : ∀ r, G.lhs r ∈ P →
      (∃ k γ, G.rhs r = .token k::γ ∧ k ∈ F (G.lhs r)) ∨
      (∃ n γ, G.rhs r = .node n::γ ∧ n ∈ P ∧ F n ⊆ F (G.lhs r)))
    {n : N} (hn : n ∈ P) (h : Derivation G m left (.node n::γ) s i vs s' j) :
    ∃ t i', i = t::i' ∧ t.kind ∈ F n := by
  induction m using Nat.strong_induction_on generalizing left γ s i vs s' j n with
  | _ m ih =>
    obtain ⟨r, us, v, vs', s₁, s₂, i', m₁, m₂, rfl, hm, h, -⟩ := h.reduce
    obtain ⟨k, δ, hr, hk⟩ | ⟨n', δ, hr, hn', hsub⟩ := hF r hn
    · rw [hr] at h
      obtain ⟨t, i', _, _, rfl, rfl, -⟩ := h.shift
      exact ⟨t, i', rfl, hk⟩
    · rw [hr] at h
      obtain ⟨t, i', hi, ht⟩ := ih m₁ hm hn' h
      exact ⟨t, i', hi, hsub ht⟩

end Derivation

section
variable (Q : K → V → Prop) (P : List V → N → S → V → S → Prop)

/-- What `Q` says of the tokens of a list of symbols and `P` of its nodes, each
with the values to its left and the states before and after it. -/
def Trace : List V → List (Symbol K N) → S → List V → S → Prop
  | _, [], s, [], s' => s' = s
  | left, .token k::γ, s, v::vs, s' => Q k v ∧ Trace (v::left) γ s vs s'
  | left, .node n::γ, s, v::vs, s' => ∃ s₁, P left n s v s₁ ∧ Trace (v::left) γ s₁ vs s'
  | _, _, _, _, _ => False

variable {Q P}

namespace Trace
variable {left vs : List V} {γ : List (Symbol K N)} {s s' : S}

theorem done : Trace Q P left [] s vs s' ↔ vs = [] ∧ s' = s := by
  cases vs <;> simp [Trace]

theorem token {k : K} : Trace Q P left (.token k::γ) s vs s' ↔
    ∃ v us, vs = v::us ∧ Q k v ∧ Trace Q P (v::left) γ s us s' := by
  cases vs <;> simp [Trace]

theorem node {n : N} : Trace Q P left (.node n::γ) s vs s' ↔
    ∃ v us s₁, vs = v::us ∧ P left n s v s₁ ∧ Trace Q P (v::left) γ s₁ us s' := by
  cases vs <;> simp [Trace]

end Trace

/-- What every action makes of the traces of its rule's right side holds of
every derivation. -/
theorem Derivation.trace {m : ℕ} {left vs : List V} {γ : List (Symbol K N)} {s s' : S}
    {i j : List (Token K V)}
    (hP : ∀ r left us v s s₁ s₂, Trace Q P [] (G.rhs r) s us s₁ →
      G.action r left us s₁ = some (v, s₂) → P left (G.lhs r) s v s₂)
    (hQ : ∀ t ∈ i, Q t.kind t.val) (h : Derivation G m left γ s i vs s' j) :
    Trace Q P left γ s vs s' ∧ ∀ t ∈ j, Q t.kind t.val := by
  induction h with
  | nil => exact ⟨rfl, hQ⟩
  | token t h ih =>
    have hrest := ih fun u hu => hQ u (List.mem_cons_of_mem t hu)
    exact ⟨⟨hQ t List.mem_cons_self, hrest.1⟩, hrest.2⟩
  | node r hr h ha hs ihr ihs =>
    have hright := ihr hQ
    have hrest := ihs hright.2
    subst hr
    exact ⟨⟨_, hP r _ _ _ _ _ _ hright.1 ha, hrest.1⟩, hrest.2⟩

end

end LambdaMoo.Grammar
