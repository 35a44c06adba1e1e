import Lox.Exec
import Lox.Proofs.Execution.Sound
import Lox.Proofs.Inset.Code

/-!
# Machines with further frames

Code with further scopes runs in further frames, which bind nothing.  The frames of a first
machine stand among those of a second one: each of them has an image that binds the same
names, and the frame at a distance is where the inset of the code says.  Values correspond
if they say the same, and if the functions in them have the same identity, stand in a frame
and in its image, and have code that corresponds.
-/

namespace Lox

/-- Frames of two machines, and the image of each frame of the first one. -/
structure Embedding where
  frames : Frames Value
  frames' : Frames Value
  image : Nat → Nat

/-! ### Insets at run time -/

/-- From `f'` outwards, the images of the frames from `f` outwards stand where the inset says. -/
structure Sees (W : Embedding) (σ : Inset) (f f' : Nat) : Prop where
  lt : f < W.frames.size
  lt' : f' < W.frames'.size
  ancestor : ∀ d g, W.frames.ancestor? f d = some g →
    W.frames'.ancestor? f' (σ d) = some (W.image g)

/-- Frames that grew on both sides: the old ones stand where they stood, with the same images. -/
structure Embedding.Extends (W W' : Embedding) : Prop where
  size_le : W.frames.size ≤ W'.frames.size
  enclosing : ∀ f < W.frames.size, W'.frames.enclosing? f = W.frames.enclosing? f
  size_le' : W.frames'.size ≤ W'.frames'.size
  enclosing' : ∀ f < W.frames'.size, W'.frames'.enclosing? f = W.frames'.enclosing? f
  image : ∀ f < W.frames.size, W'.image f = W.image f

section

variable {W W' : Embedding} {σ : Inset} {f f' : Nat}

theorem Sees.extend (h : Sees W σ f f') (hextends : W.Extends W') : Sees W' σ f f' := by
  refine ⟨Nat.lt_of_lt_of_le h.lt hextends.size_le, Nat.lt_of_lt_of_le h.lt' hextends.size_le', ?_⟩
  intro d g hg
  rw [Frames.ancestor?_of_enclosing hextends.enclosing h.lt] at hg
  rw [Frames.ancestor?_of_enclosing hextends.enclosing' h.lt',
    hextends.image g (Frames.lt_of_ancestor? h.lt hg)]
  exact h.ancestor d g hg

/-- Where no further scope is innermost, one frame is the image of the other. -/
theorem Sees.image_eq (h : Sees W σ f f') (hσ : σ 0 = 0) : f' = W.image f := by
  have hfound := h.ancestor 0 f rfl
  rw [hσ] at hfound
  exact Option.some.inj hfound

/-- Some frames further out on the first side. -/
theorem Sees.outer (h : Sees W σ f f') {k home : Nat} (hhome : W.frames.ancestor? f k = some home) :
    Sees W (σ.outer k) home f' := by
  refine ⟨Frames.lt_of_ancestor? h.lt hhome, h.lt', ?_⟩
  intro d g hg
  apply h.ancestor (k + d) g
  rw [Frames.ancestor?_add, hhome]
  exact hg

/-! ### New frames -/

def Embedding.child (W : Embedding) (f f' : Nat) : Embedding where
  frames := W.frames.child f
  frames' := W.frames'.child f'
  image g := if g = W.frames.next then W.frames'.next else W.image g

/-- A new frame on the second side only. -/
def Embedding.box (W : Embedding) (f' : Nat) : Embedding :=
  { W with frames' := W.frames'.child f' }

theorem Embedding.extends_child (W : Embedding) (f f' : Nat) : W.Extends (W.child f f') where
  size_le := by simp [child, Frames.size_child]
  enclosing _ hg := Frames.enclosing?_child_of_lt hg
  size_le' := by simp [child, Frames.size_child]
  enclosing' _ hg := Frames.enclosing?_child_of_lt hg
  image _ hg := if_neg (Nat.ne_of_lt hg)

theorem Embedding.extends_box (W : Embedding) (f' : Nat) : W.Extends (W.box f') where
  size_le := Nat.le_refl _
  enclosing _ _ := rfl
  size_le' := by simp [box, Frames.size_child]
  enclosing' _ hg := Frames.enclosing?_child_of_lt hg
  image _ _ := rfl

theorem Sees.child (h : Sees W σ f f') :
    Sees (W.child f f') σ.enter W.frames.next W.frames'.next := by
  have hold := h.extend (W.extends_child f f')
  refine ⟨W.frames.next_lt_child f, W.frames'.next_lt_child f', ?_⟩
  intro d g hg
  cases d with
  | zero =>
    cases hg
    change some W.frames'.next = some (if _ then _ else _)
    rw [if_pos rfl]
  | succ d =>
    change (W.frames.child f).ancestor? _ (d + 1) = some g at hg
    change (W.frames'.child f').ancestor? _ (σ d + 1) = _
    rw [Frames.ancestor?, Frames.enclosing?_child_next h.lt, Option.bind_some] at hg
    rw [Frames.ancestor?, Frames.enclosing?_child_next h.lt', Option.bind_some]
    exact hold.ancestor d g hg

theorem Sees.box (h : Sees W σ f f') : Sees (W.box f') σ.further f W.frames'.next := by
  have hold := h.extend (W.extends_box f')
  refine ⟨hold.lt, W.frames'.next_lt_child f', ?_⟩
  intro d g hg
  change (W.frames'.child f').ancestor? _ (σ d + 1) = _
  rw [Frames.ancestor?, Frames.enclosing?_child_next h.lt', Option.bind_some]
  exact hold.ancestor d g hg

end

/-! ### Occurrences -/

/--
Occurrences of the same token whose distances correspond.  An occurrence of `super` also
looks up `this`, one scope further in.
-/
structure InPlace (D D' : Distances) (σ : Inset) (kind : OccurrenceKind) (p p' : Occurrence) :
    Prop where
  token : p'.token = p.token
  distance : D'[p'.id]? = D[p.id]?.map σ
  inner : kind = .super → ∀ d, D[p.id]? = some d → σ (d - 1) = σ d - 1

section

variable {D D' : Distances} {σ : Inset} {kind : OccurrenceKind} {p p' : Occurrence}

theorem InPlace.name_eq (h : InPlace D D' σ kind p p') : p'.name = p.name :=
  congrArg Token.lexeme h.token

theorem InPlace.line_eq (h : InPlace D D' σ kind p p') : p'.line = p.line :=
  congrArg Token.line h.token

end

/-! ### Values -/

section

variable (D D' : Distances) (W : Embedding)

/--
Functions that correspond.  Of a method that was not bound to an instance yet, the closure
lacks the frame of `this`.
-/
structure FunctionEmbedded (bound : Bool) (f f' : Function) : Prop where
  id : f'.id = f.id
  closure : bound = true → f'.closure = W.image f.closure
  isInitializer : f'.isInitializer = f.isInitializer
  declaration : ∃ σ, FunctionInset (InPlace D D') (if bound then σ else σ.enter) f.declaration
    f'.declaration ∧ Sees W σ f.closure f'.closure

structure LayerEmbedded (layer layer' : ClassLayer) : Prop where
  id : layer'.id = layer.id
  name : layer'.name = layer.name
  methods : ∀ name, Option.Rel (FunctionEmbedded D D' W false) (layer.methods.find? name)
    (layer'.methods.find? name)

def ClassEmbedded (c c' : Class) : Prop := List.Forall₂ (LayerEmbedded D D' W) c.chain c'.chain

inductive ValueEmbedded : Value → Value → Prop where
  | nil : ValueEmbedded .nil .nil
  | bool {b : Bool} : ValueEmbedded (.bool b) (.bool b)
  | number {x : Float} : ValueEmbedded (.number x) (.number x)
  | string {text : String} : ValueEmbedded (.string text) (.string text)
  | native {native : Native} : ValueEmbedded (.native native) (.native native)
  | function {f f' : Function} :
      FunctionEmbedded D D' W true f f' → ValueEmbedded (.function f) (.function f')
  | class {c c' : Class} : ClassEmbedded D D' W c c' → ValueEmbedded (.class c) (.class c')
  | object {owner owner' : Instance} :
      owner'.id = owner.id → ClassEmbedded D D' W owner.cls owner'.cls →
      ValueEmbedded (.object owner) (.object owner')

abbrev ValuesEmbedded : List Value → List Value → Prop := List.Forall₂ (ValueEmbedded D D' W)

end

section

variable {D D' : Distances} {W W' : Embedding}

theorem FunctionEmbedded.extend {bound : Bool} {f f' : Function}
    (h : FunctionEmbedded D D' W bound f f') (hextends : W.Extends W') :
    FunctionEmbedded D D' W' bound f f' := by
  obtain ⟨σ, hcode, hsees⟩ := h.declaration
  refine ⟨h.id, ?_, h.isInitializer, σ, hcode, hsees.extend hextends⟩
  intro hbound
  rw [h.closure hbound, hextends.image _ hsees.lt]

theorem ClassEmbedded.extend {c c' : Class} (h : ClassEmbedded D D' W c c')
    (hextends : W.Extends W') : ClassEmbedded D D' W' c c' := by
  refine List.Forall₂.imp ?_ h
  intro layer layer' hlayer
  refine ⟨hlayer.id, hlayer.name, ?_⟩
  intro name
  have hmethod := hlayer.methods name
  generalize layer.methods.find? name = f at hmethod ⊢
  generalize layer'.methods.find? name = f' at hmethod ⊢
  cases hmethod with
  | none => exact .none
  | some hf => exact .some (hf.extend hextends)

/-- What corresponds goes on to do so while frames are made. -/
theorem ValueEmbedded.extend {value value' : Value} (h : ValueEmbedded D D' W value value')
    (hextends : W.Extends W') : ValueEmbedded D D' W' value value' := by
  cases h with
  | nil => exact .nil
  | bool => exact .bool
  | number => exact .number
  | string => exact .string
  | native => exact .native
  | function hf => exact .function (hf.extend hextends)
  | «class» hc => exact .class (ClassEmbedded.extend hc hextends)
  | object hid hc => exact .object hid (ClassEmbedded.extend hc hextends)

theorem ValuesEmbedded.extend {values values' : List Value}
    (h : ValuesEmbedded D D' W values values') (hextends : W.Extends W') :
    ValuesEmbedded D D' W' values values' :=
  List.Forall₂.imp (fun _ _ hvalue => hvalue.extend hextends) h

theorem Option.Rel.extend {value value' : Option Value}
    (h : Option.Rel (ValueEmbedded D D' W) value value') (hextends : W.Extends W') :
    Option.Rel (ValueEmbedded D D' W') value value' := by
  cases h with
  | none => exact .none
  | some hvalue => exact .some (hvalue.extend hextends)

end

/-! ### Machines -/

/-- The frames of two machines, with the images of those of the first one. -/
def Machine.into (m m' : Machine) (image : Nat → Nat) : Embedding := ⟨m.frames, m'.frames, image⟩

/-- The second machine is like the first one, but for further frames. -/
structure MachineEmbedded (D D' : Distances) (image : Nat → Nat) (m m' : Machine) : Prop where
  distances : m.distances = D
  distances' : m'.distances = D'
  nonempty : Frames.globalFrame < m.frames.size
  global : image Frames.globalFrame = Frames.globalFrame
  lt : ∀ f < m.frames.size, image f < m'.frames.size
  injective : ∀ f < m.frames.size, ∀ g < m.frames.size, image f = image g → f = g
  bound : ∀ f < m.frames.size, ∀ name, Option.Rel (ValueEmbedded D D' (m.into m' image))
    (m.frames.findIn? f name) (m'.frames.findIn? (image f) name)
  fieldsSize : m'.fields.size = m.fields.size
  fields : ∀ i name, Option.Rel (ValueEmbedded D D' (m.into m' image))
    ((m.fields.getD i .empty).find? name) ((m'.fields.getD i .empty).find? name)
  nextIdentity : m'.nextIdentity = m.nextIdentity
  depth : m'.depth = m.depth
  ticks : m'.ticks = m.ticks
  sink : m'.sink = m.sink

end Lox
