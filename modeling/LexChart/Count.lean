import LexChart.Fault
set_option autoImplicit false

/-!
# Counts and sizes

A count is a number of 64 bits.  A list in memory takes fewer bytes than half of the counts there
are.  What goes beyond either limit is a fault.
-/

namespace LexChart

/-- Counts are below this number. -/
def countLimit : Nat := UInt64.size

/-- A list in memory takes fewer bytes than this. -/
def sizeLimit : Nat := Nat.pow 2 63

/-- The count, if it is one. -/
def checkCount (count : Nat) : Except Fault Nat :=
  if count < countLimit then .ok count else .error .countOverflow

/-- A list of this length fits in memory, each of its items taking so many bytes. -/
def checkSize (length bytes : Nat) : Except Fault Unit :=
  if length * bytes < sizeLimit then .ok () else .error .sizeOverflow

end LexChart
