import Lox.Bindings
import Lox.Diagnostic

/-!
# Frames

Frames hold the bindings of names at run time.  Each of them is enclosed by an
older one, except the global frame, so the frames form a forest that grows and
whose frames are shared: a frame stays as long as something inside it refers to
it.  A name is found in two ways: by going a known distance outwards, or by
searching outwards for the first frame that binds it.
-/

namespace Lox

abbrev FrameId := Nat

structure Frame (α : Type) where
  bindings : Bindings α
  enclosing? : Option FrameId

/-- All frames made so far.  A frame is younger than the one that encloses it. -/
structure Frames (α : Type) where
  toArray : Array (Frame α)
  enclosing_lt : ∀ (f : FrameId) (inRange : f < toArray.size) (outer : FrameId),
    toArray[f].enclosing? = some outer → outer < f

namespace Frames

variable {α : Type}

def globalFrame : FrameId := 0

def initial : Frames α where
  toArray := #[⟨.empty, none⟩]
  enclosing_lt := by
    intro f inRange outer found
    have : f = 0 := by simpa using inRange
    subst this
    simp at found

def size (frames : Frames α) : Nat := frames.toArray.size

def enclosing? (frames : Frames α) (f : FrameId) : Option FrameId :=
  (frames.toArray[f]?).bind Frame.enclosing?

def findIn? (frames : Frames α) (f : FrameId) (name : String) : Option α :=
  (frames.toArray[f]?).bind fun frame => frame.bindings.find? name

def next (frames : Frames α) : FrameId := frames.toArray.size

def child (frames : Frames α) (outer : FrameId) : Frames α where
  toArray := frames.toArray.push
    ⟨.empty, if outer < frames.toArray.size then some outer else none⟩
  enclosing_lt := by
    intro f inRange o found
    rw [Array.getElem_push] at found
    split at found
    · rename_i older
      exact frames.enclosing_lt f older o found
    · rename_i newest
      by_cases known : outer < frames.toArray.size
      · simp only [known, if_true, Option.some.injEq] at found
        exact found ▸ Nat.lt_of_lt_of_le known (Nat.le_of_not_lt newest)
      · simp [known] at found

/-- Binds a name in a frame, whether or not the frame binds it already. -/
def define (frames : Frames α) (f : FrameId) (name : String) (a : α) : Frames α where
  toArray := frames.toArray.modify f fun frame =>
    { frame with bindings := frame.bindings.insert name a }
  enclosing_lt := by
    intro g inRange o found
    rw [Array.getElem_modify] at found
    simp only [Array.size_modify] at inRange
    split at found
    · exact frames.enclosing_lt g inRange o found
    · exact frames.enclosing_lt g inRange o found

theorem size_child (frames : Frames α) (outer : FrameId) :
    (frames.child outer).size = frames.size + 1 := by
  simp [size, child]

theorem size_define (frames : Frames α) (f : FrameId) (name : String) (a : α) :
    (frames.define f name a).size = frames.size := by
  simp [size, define]

/-- Binding a name does not move any frame. -/
theorem enclosing?_define (frames : Frames α) (f g : FrameId) (name : String) (a : α) :
    (frames.define f name a).enclosing? g = frames.enclosing? g := by
  simp only [enclosing?, define, Array.getElem?_modify]
  split
  · cases frames.toArray[g]? <;> rfl
  · rfl

/-- Binding a name changes what that frame binds that name to, and nothing else. -/
theorem findIn?_define (frames : Frames α) (f g : FrameId) (name other : String) (a : α)
    (known : f < frames.size) :
    (frames.define f name a).findIn? g other =
      if g = f ∧ other = name then some a else frames.findIn? g other := by
  simp only [findIn?, define, Array.getElem?_modify]
  by_cases same : f = g
  · subst same
    have found : frames.toArray[f]? = some frames.toArray[f] := Array.getElem?_eq_getElem known
    simp [found, Bindings.find?_insert]
  · have differs : ¬ g = f := fun h => same h.symm
    simp [same, differs]

/-! ### By distance -/

def ancestor? (frames : Frames α) (f : FrameId) : Nat → Option FrameId
  | 0 => some f
  | distance + 1 => (frames.enclosing? f).bind fun outer => frames.ancestor? outer distance

def getAt (frames : Frames α) (f : FrameId) (distance : Nat) (name : String) (line : Nat) :
    Except RuntimeError α :=
  match (frames.ancestor? f distance).bind fun g => frames.findIn? g name with
  | some a => .ok a
  | none => .error ⟨.unresolvedBinding name distance, line⟩

def frameAt (frames : Frames α) (f : FrameId) (distance : Nat) (name : String) (line : Nat) :
    Except RuntimeError FrameId :=
  match frames.ancestor? f distance with
  | some g => .ok g
  | none => .error ⟨.unresolvedBinding name distance, line⟩

def assignAt (frames : Frames α) (f : FrameId) (distance : Nat) (name : String) (line : Nat)
    (a : α) : Except RuntimeError (Frames α) :=
  (frames.frameAt f distance name line).map fun g => frames.define g name a

/-! ### By search -/

/-- The first frame from `f` outwards that binds a name. -/
def holder? (frames : Frames α) (name : String) (f : FrameId) : Option FrameId :=
  if inRange : f < frames.toArray.size then
    if frames.toArray[f].bindings.contains name then some f
    else
      match found : frames.toArray[f].enclosing? with
      | some outer => frames.holder? name outer
      | none => none
  else none
termination_by f
decreasing_by exact frames.enclosing_lt f inRange outer found

def get (frames : Frames α) (f : FrameId) (name : String) (line : Nat) : Except RuntimeError α :=
  match (frames.holder? name f).bind fun g => frames.findIn? g name with
  | some a => .ok a
  | none => .error ⟨.undefinedVariable name, line⟩

def frameOf (frames : Frames α) (f : FrameId) (name : String) (line : Nat) :
    Except RuntimeError FrameId :=
  match frames.holder? name f with
  | some g => .ok g
  | none => .error ⟨.undefinedVariable name, line⟩

def assign (frames : Frames α) (f : FrameId) (name : String) (line : Nat) (a : α) :
    Except RuntimeError (Frames α) :=
  (frames.frameOf f name line).map fun g => frames.define g name a

end Frames

end Lox
