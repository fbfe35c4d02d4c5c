import Mathlib.Init

/-!
# Failed Assertions

The ways a run of the modelled code stops: an assertion of the source that fails, or an
operation on an object the source assumes to be there.
-/

namespace ArbitraryComposer

/-- Where a run stops. -/
inductive Fault where
  /-- A reference was copied whose 32-bit count is at its ceiling. -/
  | countOverflow
  /-- A reference was released whose count is already zero. -/
  | countUnderflow
  /-- The value of a failed operation was used. -/
  | emptyDeref
  /-- A slot was used that holds no object of the expected type. -/
  | dangling
  /-- A recursion or a loop went past the bound the model gives it. -/
  | depthExceeded
  /-- A document-session allocator was asked for a synthetic identifier. -/
  | syntheticId
  /-- An operation was called on something its caller does not have. -/
  | misuse
  deriving DecidableEq, Repr

end ArbitraryComposer
