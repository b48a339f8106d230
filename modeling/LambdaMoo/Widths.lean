import LambdaMoo.Builtins
import LambdaMoo.Tasks
import LambdaMoo.StringIndex

/-!
# Numbers that become `int`s

Numbers have 64 bits; the functions that insert into lists, take ranges of
them, look up verbs by number and find tasks take `int`s. Where the number and
the `int` it becomes mean different things, the operation does something else
than what was asked for.
-/

set_option autoImplicit false

namespace LambdaMoo.Execute

/-- A list of the server; its length is an `int`. -/
structure Elements where
  list : List Var
  short : list.length < 2^31

/-- How many elements of a list of length `n` stay before an element inserted at a position. -/
def ahead (n : ℕ) (pos : ℤ) : ℕ := min (pos-1).toNat n

end LambdaMoo.Execute

namespace LambdaMoo.Database
open LambdaMoo.Execute

end LambdaMoo.Database

namespace LambdaMoo.Tasks
open LambdaMoo.Execute

/-- A task has an id. -/
def HasTask (s : Server) (id : ℤ) : Prop :=
  id = s.currentTaskId ∨ (∃ t ∈ s.waiting, t.id = id) ∨
    (∃ q ∈ s.idle, (s.queue q).reading = some id) ∨
    ∃ q ∈ s.active, (s.queue q).reading = some id ∨ ∃ t ∈ (s.queue q).bg, t.id = id

/-- A suspended task has an id. -/
def Resumable (s : Server) (id : ℤ) : Prop :=
  (∃ t ∈ s.waiting, Server.isSuspended id t = true) ∨
    ∃ q ∈ s.active, ∃ t ∈ (s.queue q).bg, Server.isSuspended id t = true

section Kill
variable {s : Server} {id progr : ℤ} {wizard : Bool}

end Kill

section Resume
variable {s : Server} {id progr now : ℤ} {flush : Option Str} {value : Var} {wizard : Bool}

theorem Resumable.known (h : Resumable s id) : HasTask s id := by
  have hid : ∀ t, Server.isSuspended id t = true → t.id = id := by
    intro t ht
    simpa using (Bool.and_eq_true_iff.mp ht).2
  rcases h with ⟨t, ht, he⟩|⟨q, hq, t, ht, he⟩
  · exact .inr (.inl ⟨t, ht, hid t he⟩)
  · exact .inr (.inr (.inr ⟨q, hq, .inr ⟨t, ht, hid t he⟩⟩))

end Resume

end LambdaMoo.Tasks

namespace LambdaMoo.Execute
open LambdaMoo.Database LambdaMoo.Tasks

end LambdaMoo.Execute
