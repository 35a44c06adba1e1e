import Lox.Resolution
import Lox.Sink
import Lox.Value

/-!
# The machine

The state of a running session: its frames, the fields of its instances, where
execution is, and what was written so far.  What the machine does not know is
asked of `Rules`: how deep calls may nest, how names are looked up, and what the
clock says.
-/

namespace Lox

inductive Lookup where
  /-- At the distance found by resolution, and else among the globals. -/
  | byDistance
  /-- In the first frame that binds the name, from the current frame outwards. -/
  | bySearch
  deriving DecidableEq, Repr

structure Rules where
  /-- The greatest number of calls that can be under way at one time. -/
  callLimit : Nat := 1024
  lookup : Lookup := .byDistance
  /-- What the clock says when it is read for the first time, the second time, and so on. -/
  clock : Nat → Float

structure Machine where
  frames : Frames Value
  /-- The fields of each instance, by its identity. -/
  fields : Array (Bindings Value)
  /-- The identity of the next function or class. -/
  nextIdentity : Identity
  /-- The frame that the code at hand runs in. -/
  current : FrameId
  /-- The number of calls under way. -/
  depth : Nat
  /-- The distances of all programs of the session. -/
  distances : Distances
  /-- How often the clock was read. -/
  ticks : Nat
  sink : Sink

namespace Machine

def initialFrames : Frames Value :=
  Native.all.foldl
    (fun frames native => frames.define Frames.globalFrame native.name (.native native))
    .initial

def initial (sink : Sink) : Machine where
  frames := initialFrames
  fields := #[]
  nextIdentity := 0
  current := Frames.globalFrame
  depth := 0
  distances := ∅
  ticks := 0
  sink := sink

def learn (m : Machine) (distances : Distances) : Machine :=
  { m with distances := distances.foldl (fun all id distance => all.insert id distance) m.distances }

def global? (m : Machine) (name : String) : Option Value :=
  m.frames.findIn? Frames.globalFrame name

end Machine

end Lox
