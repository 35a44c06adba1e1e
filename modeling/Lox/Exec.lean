import Lox.Machine

/-!
# Steps of the machine

What a program can do to the machine in one step: make a frame, bind a name, read
a variable or a property, make a function or an instance, and write.  A step that
fails leaves the machine as it was.  Running in another frame, and running as a
call, put back what they changed however the run ends.
-/

namespace Lox

inductive Interrupt where
  | error (error : RuntimeError)
  /-- The bound on the depth of the recursion was reached. -/
  | outOfFuel
  deriving DecidableEq, Repr

/-- An execution keeps what it did to the machine also when it stops. -/
abbrev Exec (α : Type) : Type := EStateM Interrupt Machine α

namespace Exec

def fail {α : Type} (cause : RuntimeCause) (line : Nat) : Exec α := throw (.error ⟨cause, line⟩)

def outOfFuel {α : Type} : Exec α := throw .outOfFuel

def lift {α : Type} : Except RuntimeError α → Exec α
  | .ok a => pure a
  | .error e => throw (.error e)

/-- Runs in another frame and comes back, however the run ends. -/
@[inline] def inFrame {α : Type} (frame : FrameId) (run : Exec α) : Exec α := fun m =>
  let home := m.current
  match run { m with current := frame } with
  | .ok a m' => .ok a { m' with current := home }
  | .error e m' => .error e { m' with current := home }

/-- Runs as a call and counts it as under way until it ends, however it ends. -/
@[inline] def asCall {α : Type} (run : Exec α) : Exec α := fun m =>
  match run { m with depth := m.depth + 1 } with
  | .ok a m' => .ok a { m' with depth := m'.depth - 1 }
  | .error e m' => .error e { m' with depth := m'.depth - 1 }

def defineIn (frame : FrameId) (name : String) (value : Value) : Exec Unit :=
  modify fun m => { m with frames := m.frames.define frame name value }

def define (name : String) (value : Value) : Exec Unit :=
  modify fun m => { m with frames := m.frames.define m.current name value }

def newFrame (outer : FrameId) : Exec FrameId := fun m =>
  .ok m.frames.next { m with frames := m.frames.child outer }

def newInnerFrame : Exec FrameId := fun m =>
  .ok m.frames.next { m with frames := m.frames.child m.current }

def newIdentity : Exec Identity := fun m =>
  .ok m.nextIdentity { m with nextIdentity := m.nextIdentity + 1 }

def newFunction (declaration : FunctionDecl) (closure : FrameId) (isInitializer : Bool) :
    Exec Function := do
  return ⟨← newIdentity, declaration, closure, isInitializer⟩

def newInstance (c : Class) : Exec Instance := fun m =>
  .ok ⟨m.fields.size, c⟩ { m with fields := m.fields.push .empty }

/-- The method of an instance: a new function that sees the instance as `this`. -/
def bind (method : Function) (owner : Instance) : Exec Function := do
  let frame ← newFrame method.closure
  defineIn frame "this" (.object owner)
  newFunction method.declaration frame method.isInitializer

def write (text : String) (line : Nat) : Exec Unit := do
  if (← get).sink.refuses text then fail .outputRefused line
  else modify fun m => { m with sink := m.sink.append text }

def readClock (rules : Rules) : Exec Float := fun m =>
  .ok (rules.clock m.ticks) { m with ticks := m.ticks + 1 }

/-! ### Variables -/

/-- Reads the name at an occurrence at its distance, and a global if it has none. -/
def readResolved (place : Occurrence) : Exec Value := do
  let m ← get
  match m.distances[place.id]? with
  | some distance => lift (m.frames.getAt m.current distance place.name place.line)
  | none => lift (m.frames.get Frames.globalFrame place.name place.line)

def readVariable (rules : Rules) (place : Occurrence) : Exec Value :=
  match rules.lookup with
  | .byDistance => readResolved place
  | .bySearch => do
    let m ← get
    lift (m.frames.get m.current place.name place.line)

/-- The frame whose binding an assignment to a variable changes. -/
def target (rules : Rules) (place : Occurrence) (m : Machine) : Except RuntimeError FrameId :=
  match rules.lookup with
  | .bySearch => m.frames.frameOf m.current place.name place.line
  | .byDistance =>
    match m.distances[place.id]? with
    | some distance => m.frames.frameAt m.current distance place.name place.line
    | none => m.frames.frameOf Frames.globalFrame place.name place.line

def assignVariable (rules : Rules) (place : Occurrence) (value : Value) : Exec Unit := do
  let frame ← lift (target rules place (← get))
  defineIn frame place.name value

/-! ### Properties -/

/-- Reads a property: a field, or else the nearest method, bound to the instance. -/
def getProperty (owner : Instance) (name : Token) : Exec Value := do
  let m ← get
  match (m.fields.getD owner.id .empty).find? name.lexeme with
  | some value => return value
  | none =>
    match owner.cls.findMethod? name.lexeme with
    | some method => return .function (← bind method owner)
    | none => fail (.undefinedProperty name.lexeme) name.line

def setField (owner : Instance) (name : String) (value : Value) : Exec Unit :=
  modify fun m =>
    { m with fields := m.fields.modify owner.id fun fields => fields.insert name value }

/-- The method that a superclass provides, bound to the instance at hand. -/
def getSuper (place : Occurrence) (method : Token) : Exec Value := do
  let m ← get
  match m.distances[place.id]? with
  | none => fail .superUnavailable place.line
  | some distance =>
    let parent ← lift (m.frames.getAt m.current distance "super" place.line)
    let owner ← lift (m.frames.getAt m.current (distance - 1) "this" place.line)
    match parent, owner with
    | .class parent, .object owner =>
      match parent.findMethod? method.lexeme with
      | some found => return .function (← bind found owner)
      | none => fail (.undefinedProperty method.lexeme) method.line
    | _, _ => fail .superUnavailable place.line

end Exec

end Lox
