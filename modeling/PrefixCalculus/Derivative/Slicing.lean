import PrefixCalculus.Derivative.Error
import PrefixCalculus.Expression
set_option autoImplicit false

/-!
Ways to take nodes out of a buffer. `Expression.slice` has an answer for all positions; a way may also
fail, or give anything, where the positions are out of order or beyond the buffer.
-/

namespace PrefixCalculus

/-- An outcome, an error, or nothing when the depth was not enough. -/
abbrev Attempt := ExceptT DerivativeError Option

abbrev Slicing := Array Node → Nat → Nat → Attempt Expression

namespace Slicing

def total : Slicing := fun nodes start stop =>
  pure (Expression.slice nodes start stop)

/-- Positions in order and inside the buffer give the nodes between them. Nothing is said of others. -/
def Exact (cut : Slicing) : Prop :=
  ∀ nodes start stop, start ≤ stop → stop ≤ nodes.size → cut nodes start stop = total nodes start stop

def refusing (error : DerivativeError) : Slicing := fun nodes start stop =>
  if start ≤ stop ∧ stop ≤ nodes.size then total nodes start stop else throw error

theorem exact_refusing (error : DerivativeError) : (refusing error).Exact :=
  fun _ _ _ hstart hstop => if_pos ⟨hstart, hstop⟩

end Slicing

end PrefixCalculus
