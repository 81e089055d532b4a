/-!
# The two passes

Discovery collects labels, with placeholders for those not seen yet; the final pass runs the same
program again with every label known.
-/

namespace Asm6502

/-- A pass over a program. -/
inductive Pass where
  | discovery
  | final
  deriving DecidableEq

namespace Pass

/-- Whether this is the final pass. -/
def isFinal : Pass → Bool
  | .discovery => false
  | .final => true

/-- The name of a pass. -/
def text : Pass → String
  | .discovery => "discovery"
  | .final => "final"

end Pass

end Asm6502
