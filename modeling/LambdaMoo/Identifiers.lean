import LambdaMoo.Lexer

/-!
# Identifiers

The characters of an identifier are code points other than 0, so a token for
an identifier carries a string without a byte 0, and no other token is one for
an identifier.
-/

set_option autoImplicit false

namespace LambdaMoo.Parse
open LambdaMoo.Utf LambdaMoo.DbIo

/-- The properties `XID_Start` and `XID_Continue` are those of code points, and 0 has neither. -/
structure Library.Xid (x : Library) : Prop where
  start : ∀ c, x.isXidStart c = true → 0 < c ∧ c ≤ 0x10ffff
  cont : ∀ c, x.isXidCont c = true → 0 < c ∧ c ≤ 0x10ffff

/-- A value that a token can have satisfies `P`: an identifier has no byte 0. -/
def Kind.Value : Kind → (Val → Prop) → Prop
  | .tId, P => ∃ w, 0 ∉ w ∧ P (.string w)
  | _, P => ∃ v, P v

def PlainToken (k : Kind) (v : Val) : Prop := k.Value (v = ·)

def Named (r : Option Token × Lexer) : Prop := ∀ t, r.1 = some t → PlainToken t.kind t.val

theorem Kind.Value.imp {k : Kind} {P Q : Val → Prop} (h : k.Value P) (hPQ : ∀ v, P v → Q v) :
    k.Value Q := by
  cases k
  case tId =>
    obtain ⟨w, hw, h⟩ := h
    exact ⟨w, hw, hPQ _ h⟩
  all_goals exact Exists.imp hPQ h

theorem plainToken_of_ne {k : Kind} (v : Val) (h : k ≠ .tId) : PlainToken k v := by
  cases k
  case tId => exact absurd rfl h
  all_goals exact ⟨v, rfl⟩

theorem named_none (L : Lexer) : Named (none, L) := by
  intro t h
  cases h

theorem named_of_ne {k : Kind} {v : Val} (h : k ≠ .tId) (L : Lexer) :
    Named (some ⟨k, v⟩, L) := by
  intro t ht
  cases ht
  exact plainToken_of_ne v h

theorem plain_named {r : Kind × Lexer} (h : r.1 ≠ .tId) : Named (plain r) := named_of_ne h r.2

theorem follow_or {α : Type} (e : ℤ) (yes no : α) (L : Lexer) :
    (follow e yes no L).1 = yes ∨ (follow e yes no L).1 = no := by
  simp only [follow]
  split
  · exact .inl rfl
  · exact .inr rfl

theorem follow_ne {e : ℤ} {yes no : Kind} {L : Lexer} (hy : yes ≠ .tId) (hn : no ≠ .tId) :
    (follow e yes no L).1 ≠ .tId := by
  obtain h | h := follow_or e yes no L
  · rwa [h]
  · rwa [h]

theorem orElse_named {r : Option Kind × Lexer} {next : Lexer → Kind × Lexer}
    (hr : ∀ k, r.1 = some k → k ≠ .tId) (hn : ∀ L, (next L).1 ≠ .tId) :
    Named (orElse r next) := by
  rw [orElse.eq_def]
  split
  · next k L => exact plain_named (hr k rfl)
  · next L => exact plain_named (hn L)

theorem checkbitwise_ne (L : Lexer) : ∀ k, (checkbitwise L).1 = some k → k ≠ .tId := by
  intro k h
  simp only [checkbitwise] at h
  split at h
  · cases h
  split at h
  · cases h
    exact nofun
  split at h
  · cases h
    exact nofun
  split at h
  · cases h
    exact nofun
  · cases h

theorem follow_some_ne {e : ℤ} {yes : Kind} {L : Lexer} (hy : yes ≠ .tId) :
    ∀ k, (follow e (some yes) none L).1 = some k → k ≠ .tId := by
  intro k hk
  obtain h | h := follow_or e (some yes) none L
  · rw [h] at hk
    cases hk
    exact hy
  · rw [h] at hk
    cases hk

theorem checkrightshift_ne (L : Lexer) :
    (checkrightshift Kind.tLshr .tShr (.chr '>') L).1 ≠ .tId := by
  simp only [checkrightshift]
  split
  · split <;> exact nofun
  · exact nofun

theorem lexDot_named (L : Lexer) : Named (lexDot L) :=
  orElse_named (checkbitwise_ne L) fun _ => follow_ne nofun nofun

theorem lexOther_named (c : ℤ) (L : Lexer) : Named (lexOther c L) := by
  rw [lexOther]
  split
  · exact orElse_named (follow_some_ne nofun) checkrightshift_ne
  split
  · exact orElse_named (follow_some_ne nofun) fun _ => follow_ne nofun nofun
  split
  · exact orElse_named (follow_some_ne nofun) fun _ => follow_ne nofun nofun
  split
  · exact plain_named (follow_ne nofun nofun)
  split
  · exact plain_named (follow_ne nofun nofun)
  split
  · exact plain_named (follow_ne nofun nofun)
  split
  · exact lexDot_named L
  split
  · exact plain_named nofun
  · exact named_of_ne (by decide) L

theorem ofNat_high {m : ℕ} (h : m.testBit 7 = true) : UInt8.ofNat m ≠ 0 := by
  intro h0
  have hm : m%256 = 0 := by simpa using congrArg UInt8.toNat h0
  have := Nat.testBit_mod_two_pow m 8 7
  rw [show 2^8 = 256 from rfl, hm, h] at this
  simp at this

theorem putUtf_noNul {c : ℤ} (h : 0 < c ∧ c ≤ 0x10ffff) : 0 ∉ (putUtf c).getD [] := by
  have hv : (c%2^32).toNat = c.toNat := by omega
  have hhigh (k y : ℕ) (hk : k.testBit 7 = true) : 0 ≠ UInt8.ofNat (k ||| y) := by
    refine (ofNat_high ?_).symm
    rw [Nat.testBit_or, hk, Bool.true_or]
  simp only [putUtf, hv]
  split
  · next hle =>
    rw [Option.getD_some, List.mem_singleton]
    intro h0
    have := congrArg UInt8.toNat h0
    simp at this
    omega
  split
  · simp only [Option.getD_some, List.mem_cons, List.not_mem_nil, or_false, not_or]
    exact ⟨hhigh _ _ rfl, hhigh _ _ rfl⟩
  split
  · split
    · simp
    · simp only [Option.getD_some, List.mem_cons, List.not_mem_nil, or_false, not_or]
      exact ⟨hhigh _ _ rfl, hhigh _ _ rfl, hhigh _ _ rfl⟩
  split
  · simp only [Option.getD_some, List.mem_cons, List.not_mem_nil, or_false, not_or]
    exact ⟨hhigh _ _ rfl, hhigh _ _ rfl, hhigh _ _ rfl, hhigh _ _ rfl⟩
  · simp

theorem streamAddUtf_noNul {tok : Str} (ht : 0 ∉ tok) {c : ℤ} (h : 0 < c ∧ c ≤ 0x10ffff) :
    0 ∉ streamAddUtf tok c := by
  rw [streamAddUtf, List.mem_append, not_or]
  exact ⟨ht, putUtf_noNul h⟩

theorem findKeyword_ne {w : Str} {k : Keyword} (h : findKeyword w = some k) :
    k.token ≠ .tId := by
  have hall : wordlist.all (fun e => e.all (fun k => decide (k.token ≠ .tId))) = true := by rfl
  rw [findKeyword] at h
  split at h
  · split at h
    · next k' hk' =>
      split at h
      · cases h
        have := List.all_eq_true.mp hall _ (List.mem_of_getElem? hk')
        exact of_decide_eq_true this
      · cases h
    · cases h
  · cases h

theorem lexObject_named {x : Library} (L : Lexer) : Named (lexObject x L) := by
  rw [lexObject]
  dsimp only
  generalize (if decide ((lexGetc L).1 = rune '-') = true then lexGetc (lexGetc L).2
    else lexGetc L) = r
  split
  · exact named_of_ne (by decide) _
  · exact named_none _

theorem finishNumber_named {x : Library} (m : Num) (s : Scan) : Named (finishNumber x m s) := by
  rw [finishNumber]
  dsimp only
  split
  · split <;> exact named_of_ne (by decide) _
  · exact named_of_ne (by decide) _

theorem lexNumber_named {x : Library} (version : DbVersion) (c : ℤ) (L : Lexer) :
    Named (lexNumber x version c L) := by
  rw [lexNumber]
  dsimp only
  split
  · exact lexDot_named _
  split
  · exact named_none _
  · exact finishNumber_named _ _

section
variable {x : Library} (hx : x.Xid) (version : DbVersion)
include hx

theorem lexCont_noNul (fuel : ℕ) {tok : Str} (ht : 0 ∉ tok) (L : Lexer) :
    0 ∉ (lexCont x fuel tok L).1 := by
  induction fuel generalizing tok L with
  | zero => exact ht
  | succ fuel ih =>
    rw [lexCont]
    split
    · next hc =>
      refine ih (streamAddUtf_noNul ht ?_) _
      obtain hc | hc := hc
      · exact hx.cont _ hc
      · rw [hc]
        decide
    · exact ht

theorem lexWord_named {c : ℤ} (hc : 0 < c ∧ c ≤ 0x10ffff) (L : Lexer) :
    Named (lexWord x version c L) := by
  have hw := lexCont_noNul hx L.left (streamAddUtf_noNul (List.not_mem_nil) hc) L
  rw [lexWord]
  dsimp only
  split
  · next k hk =>
    split
    · exact named_of_ne (findKeyword_ne hk) _
    · intro t ht
      cases ht
      exact ⟨_, hw, rfl⟩
  · intro t ht
    cases ht
    exact ⟨_, hw, rfl⟩

theorem lexFrom_named (c : ℤ) (L : Lexer) : Named (lexFrom x version c L) := by
  rw [lexFrom]
  split
  · exact lexObject_named L
  split
  · exact lexNumber_named version c L
  split
  · next hc =>
    refine lexWord_named hx version ?_ L
    obtain hc | hc := hc
    · exact hx.start _ hc
    · rw [hc]
      decide
  split
  · exact named_of_ne (by decide) _
  · exact lexOther_named c L

theorem yylex_named (fuel : ℕ) (L : Lexer) : Named (yylexFuel x version fuel L) := by
  induction fuel generalizing L with
  | zero => exact named_none L
  | succ fuel ih =>
    rw [yylexFuel]
    dsimp only
    split
    · exact named_none _
    split
    · split
      · split
        · exact ih _
        · exact named_none _
      · exact named_of_ne (by decide) _
    · exact lexFrom_named hx version _ _

theorem tokens_named (fuel : ℕ) (L : Lexer) :
    ∀ t ∈ (tokensFuel x version fuel L).1, PlainToken t.kind t.val := by
  induction fuel generalizing L with
  | zero =>
    intro t ht
    cases ht
  | succ fuel ih =>
    rw [tokensFuel]
    have hy := yylex_named hx version L.left L
    split
    · intro t ht
      cases ht
    · next t L' heq =>
      refine List.forall_mem_cons.mpr ⟨hy t ?_, ih L'⟩
      exact congrArg Prod.fst heq

end

end LambdaMoo.Parse
