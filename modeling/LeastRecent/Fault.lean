/-!
# What can go wrong

`SetupError` is an ordinary answer: a cache was asked for with a capacity that none can have. A `Fault` ends a call that
broke a rule of the structures below it.
-/

namespace LeastRecent

/-- Why a cache was not created. -/
inductive SetupError
  /-- The capacity has to be positive. -/
  | invalidCapacity (given : Nat)
  deriving DecidableEq

namespace SetupError

/-- What the user is told. -/
def message : SetupError → String
  | .invalidCapacity n => s!"capacity must be a positive number but was {n}"

/-- The error as a term. -/
def term : SetupError → String
  | .invalidCapacity n => s!"InvalidCapacity({n})"

end SetupError

/-- Why a call ended without a result. -/
inductive Fault
  /-- A link was given back that was not held. -/
  | linkUnderflow
  /-- An object was retired a second time. -/
  | duplicateRetirement
  /-- Room was reserved for more entries than memory can address. -/
  | reservation
  deriving DecidableEq

/-- What the caller is told. -/
def Fault.message : Fault → String
  | .linkUnderflow => "link count underflow"
  | .duplicateRetirement => "DUPLICATE defer_destroy"
  | .reservation => "capacity overflow"

end LeastRecent
