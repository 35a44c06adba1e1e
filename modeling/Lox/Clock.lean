/-!
# The clock

What the clock says is a number of seconds since the beginning of 1970, counted in
whole microseconds.  A run does not look at the time while it goes on: it is told
when it starts, and each reading of the clock takes a microsecond.  So time never
stands still or goes back, and a program that waits for a time to come gets there.
-/

namespace Lox.Clock

def seconds (microseconds : Nat) : Float := Float.ofNat microseconds / 1.0e6

/-- A clock that starts at a time in microseconds and advances by one with each reading. -/
def advancing (start reading : Nat) : Float := seconds (start + reading)

example : (advancing 1500000 0).toBits = (1.5 : Float).toBits := by decide +kernel

example : advancing 1800000000000000 0 < advancing 1800000000000000 1 := by decide +kernel

end Lox.Clock
