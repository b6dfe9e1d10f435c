import Mathlib.Init

/-!
# Status

The result of a fallible operation: either the OK status or an error with its messages.
`Status.ok` is the member function as `status.h` has it, which answers true for every status;
`Status.isOK` is what its name and its callers mean by it.
-/

set_option autoImplicit false

namespace LevelDB

inductive Status
  | OK
  | NotFound (msg msg2 : String)
  | Corruption (msg msg2 : String)
  | NotSupported (msg msg2 : String)
  | InvalidArgument (msg msg2 : String)
  | IOError (msg msg2 : String)
  deriving DecidableEq, Repr, Inhabited

/-- `ok()` as written: it does not look at the status. -/
def Status.ok (_ : Status) : Bool := true

/-- The documented reading: a status is ok exactly when it is the OK status. -/
def Status.isOK (s : Status) : Bool := s == .OK

@[simp] theorem Status.isOK_iff {s : Status} : s.isOK = true ↔ s = .OK := by
  simp [Status.isOK]

@[simp] theorem Status.isOK_eq_false_iff {s : Status} : s.isOK = false ↔ s ≠ .OK := by
  simp [Status.isOK]

end LevelDB
