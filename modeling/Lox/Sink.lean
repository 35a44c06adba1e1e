/-!
# Where output goes

A sink accepts texts one after the other until it is full.  Output that was
accepted still has to be passed on when a run ends, which may fail as well.
-/

namespace Lox

def lineBreaks (text : String) : Nat := text.toList.count '\n'

/--
Where output goes.  From the moment that `full` holds of what was accepted and of
its number of line breaks, nothing more is accepted.  The text of a value is one write,
where `print` hands over `<fn `, the name and `>` one by one.  A sink that is bounded by
line breaks cannot tell the difference, since only strings have any, and these are handed
over at once.  A sink that is bounded by characters may refuse the rest of such a text,
where this one accepts it to the end.
-/
structure Sink where
  accepted : String := ""
  breaks : Nat := 0
  full : String → Nat → Bool := fun _ _ => false
  /-- Whether the sink fails when it is asked to pass on what it accepted. -/
  flushFails : Bool := false
  /-- Line breaks are counted as they come, so that no text is looked through twice. -/
  breaks_eq : breaks = lineBreaks accepted := by rfl

namespace Sink

/-- Whether the sink refuses a text; there is nothing to refuse about the empty text. -/
def refuses (sink : Sink) (text : String) : Bool :=
  !text.isEmpty && sink.full sink.accepted sink.breaks

def append (sink : Sink) (text : String) : Sink :=
  { sink with
    accepted := sink.accepted ++ text
    breaks := sink.breaks + lineBreaks text
    breaks_eq := by simp [sink.breaks_eq, lineBreaks] }

def size (sink : Sink) : Nat := sink.accepted.length

def outputFrom (sink : Sink) (start : Nat) : String :=
  String.ofList (sink.accepted.toList.drop start)

def unlimited : Sink := {}

/-- A sink that is full after a number of line breaks. -/
def limited (lines : Nat) (flushFails : Bool) : Sink :=
  { full := fun _ breaks => lines ≤ breaks, flushFails := flushFails }

end Sink

end Lox
