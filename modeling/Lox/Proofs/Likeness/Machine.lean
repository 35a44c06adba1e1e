import Lox.Exec
import Lox.Proofs.Frames.Mirroring
import Lox.Proofs.Likeness.Code

/-!
# Machines that look alike

Two machines look alike if they have the same frames, except that each frame of the
second one binds the names that the renaming of the frame yields, and if the values
that are bound look alike.  Values do so if they say the same, and if the functions in
them have the same identity, stand in the same frame, and have code that looks alike.
A world gives the renaming of each frame.
-/

namespace Lox

abbrev World := Nat → Renaming

/-! ### Surroundings at run time -/

/-- The frames from `f` outwards have the renamings of the surroundings. -/
structure Follows (W : World) (frames : Frames Value) (Γ : Surroundings) (f : Nat) : Prop where
  lt : f < frames.size
  renamings : ∀ d g, frames.ancestor? f d = some g → W g = Γ d

/-- Frames and worlds that grew: the old frames stand where they stood, with the same renamings. -/
structure Evolves (W : World) (frames : Frames Value) (W' : World) (frames' : Frames Value) :
    Prop where
  size_le : frames.size ≤ frames'.size
  enclosing : ∀ f, f < frames.size → frames'.enclosing? f = frames.enclosing? f
  renamings : ∀ f, f < frames.size → W' f = W f

section

variable {W W' W'' : World} {frames frames' frames'' : Frames Value} {Γ : Surroundings} {f : Nat}

theorem Evolves.refl (W : World) (frames : Frames Value) : Evolves W frames W frames :=
  ⟨Nat.le_refl _, fun _ _ => rfl, fun _ _ => rfl⟩

theorem Evolves.trans (h : Evolves W frames W' frames') (h' : Evolves W' frames' W'' frames'') :
    Evolves W frames W'' frames'' := by
  constructor
  · exact Nat.le_trans h.size_le h'.size_le
  · intro f hf
    rw [h'.enclosing f (Nat.lt_of_lt_of_le hf h.size_le), h.enclosing f hf]
  · intro f hf
    rw [h'.renamings f (Nat.lt_of_lt_of_le hf h.size_le), h.renamings f hf]

theorem Evolves.define (W : World) (frames : Frames Value) (f : Nat) (name : String)
    (value : Value) : Evolves W frames W (frames.define f name value) := by
  constructor
  · exact Nat.le_of_eq (Frames.size_define frames f name value).symm
  · intro g _
    exact Frames.enclosing?_define frames f g name value
  · intro g _
    rfl

theorem Follows.evolve (h : Follows W frames Γ f) (hevolves : Evolves W frames W' frames') :
    Follows W' frames' Γ f := by
  constructor
  · exact Nat.lt_of_lt_of_le h.lt hevolves.size_le
  · intro d g hg
    rw [Frames.ancestor?_of_enclosing hevolves.enclosing h.lt] at hg
    rw [hevolves.renamings g (Frames.lt_of_ancestor? h.lt hg), h.renamings d g hg]

def World.add (W : World) (frames : Frames Value) (σ : Renaming) : World :=
  fun f => if f = frames.next then σ else W f

theorem Evolves.child (W : World) (frames : Frames Value) (outer : Nat) (σ : Renaming) :
    Evolves W frames (W.add frames σ) (frames.child outer) := by
  constructor
  · rw [Frames.size_child]
    exact Nat.le_succ _
  · intro g hg
    exact Frames.enclosing?_child_of_lt hg
  · intro g hg
    exact if_neg (Nat.ne_of_lt hg)

/-- A new frame follows the surroundings inside of a new scope. -/
theorem Follows.child (h : Follows W frames Γ f) (σ : Renaming) :
    Follows (W.add frames σ) (frames.child f) (Γ.enter σ) frames.next := by
  have hevolves := Evolves.child W frames f σ
  refine ⟨frames.next_lt_child f, ?_⟩
  intro d g hg
  cases d with
  | zero =>
    cases hg
    exact if_pos rfl
  | succ d =>
    rw [Frames.ancestor?, Frames.enclosing?_child_next h.lt, Option.bind_some] at hg
    exact (h.evolve hevolves).renamings d g hg

end

/-! ### Values -/

section

variable (K : Likeness) (W : World) (frames : Frames Value)

/--
Functions that look alike.  Of a method that was not bound to an instance yet, the
closure lacks the frame of `this`.
-/
structure ClosureLike (bound : Bool) (f f' : Function) : Prop where
  id : f'.id = f.id
  closure : f'.closure = f.closure
  isInitializer : f'.isInitializer = f.isInitializer
  declaration : ∃ Γ, FunctionLike K (if bound then Γ else Γ.enter .same) f.declaration
    f'.declaration ∧ Follows W frames Γ f.closure

structure LayerLike (layer layer' : ClassLayer) : Prop where
  id : layer'.id = layer.id
  name : layer'.name = layer.name
  methods : ∀ name, Option.Rel (ClosureLike K W frames false) (layer.methods.find? name)
    (layer'.methods.find? name)

def ClassLike (c c' : Class) : Prop := List.Forall₂ (LayerLike K W frames) c.chain c'.chain

inductive ValueLike : Value → Value → Prop where
  | nil : ValueLike .nil .nil
  | bool {b : Bool} : ValueLike (.bool b) (.bool b)
  | number {x : Float} : ValueLike (.number x) (.number x)
  | string {text : String} : ValueLike (.string text) (.string text)
  | native {native : Native} : ValueLike (.native native) (.native native)
  | function {f f' : Function} :
      ClosureLike K W frames true f f' → ValueLike (.function f) (.function f')
  | class {c c' : Class} : ClassLike K W frames c c' → ValueLike (.class c) (.class c')
  | object {owner owner' : Instance} :
      owner'.id = owner.id → ClassLike K W frames owner.cls owner'.cls →
      ValueLike (.object owner) (.object owner')

end

section

variable {K K' : Likeness} {W W' : World} {frames frames' : Frames Value}

/-- What looks alike goes on to do so in a weaker sense, and while frames are made. -/
theorem ClosureLike.mono (hK : K.Le K') (hevolves : Evolves W frames W' frames') {bound : Bool}
    {f f' : Function} (h : ClosureLike K W frames bound f f') :
    ClosureLike K' W' frames' bound f f' := by
  refine ⟨h.id, h.closure, h.isInitializer, ?_⟩
  obtain ⟨Γ, hcode, hfollows⟩ := h.declaration
  exact ⟨Γ, hcode.mono hK, hfollows.evolve hevolves⟩

theorem ClassLike.mono (hK : K.Le K') (hevolves : Evolves W frames W' frames') {c c' : Class}
    (h : ClassLike K W frames c c') : ClassLike K' W' frames' c c' := by
  apply List.Forall₂.imp ?_ h
  intro layer layer' hlayer
  refine ⟨hlayer.id, hlayer.name, ?_⟩
  intro name
  exact Option.Rel.imp (hlayer.methods name) fun _ _ hf => hf.mono hK hevolves

theorem ValueLike.mono (hK : K.Le K') (hevolves : Evolves W frames W' frames')
    {value value' : Value} (h : ValueLike K W frames value value') :
    ValueLike K' W' frames' value value' := by
  cases h with
  | nil => exact .nil
  | bool => exact .bool
  | number => exact .number
  | string => exact .string
  | native => exact .native
  | function hf => exact .function (hf.mono hK hevolves)
  | «class» hc => exact .class (ClassLike.mono hK hevolves hc)
  | object hid hc => exact .object hid (ClassLike.mono hK hevolves hc)

theorem Likeness.Le.refl (K : Likeness) : K.Le K :=
  ⟨fun _ h => h, fun _ _ h => h, fun _ _ _ h => h, fun _ _ _ h => h⟩

theorem ValueLike.evolve (hevolves : Evolves W frames W' frames') {value value' : Value}
    (h : ValueLike K W frames value value') : ValueLike K W' frames' value value' :=
  h.mono (.refl K) hevolves

theorem ClassLike.evolve (hevolves : Evolves W frames W' frames') {c c' : Class}
    (h : ClassLike K W frames c c') : ClassLike K W' frames' c c' :=
  ClassLike.mono (.refl K) hevolves h

end

/-! ### Machines -/

/-- What a likeness has to say so that code that looks alike does the same in two machines. -/
structure Faithful (K : Likeness) (line : Nat → Nat → Prop) (distances distances' : Distances) :
    Prop where
  allowed : K.allowed .same
  token : ∀ t t', K.token t t' → t'.kind = t.kind ∧ t'.lexeme = t.lexeme ∧ line t.line t'.line
  binder : ∀ σ t t', K.binder σ t t' → t'.lexeme = σ t.lexeme
  distance : ∀ Γ p p', K.place Γ p p' → distances'[p'.id]? = distances[p.id]?
  near : ∀ Γ p p', K.place Γ p p' → ∀ d, distances[p.id]? = some d → p'.name = Γ d p.name
  far : ∀ Γ p p', K.place Γ p p' → distances[p.id]? = none → p'.name = p.name
  line : ∀ Γ p p', K.place Γ p p' → line p.line p'.line

structure MachineLike (K : Likeness) (line : Nat → Nat → Prop) (W : World) (m m' : Machine) :
    Prop where
  faithful : Faithful K line m.distances m'.distances
  renamings : ∀ f, K.allowed (W f)
  global : W Frames.globalFrame = .same
  size : m'.frames.size = m.frames.size
  enclosing : ∀ f, m'.frames.enclosing? f = m.frames.enclosing? f
  bound : ∀ f name, Option.Rel (ValueLike K W m.frames) (m.frames.findIn? f name)
    (m'.frames.findIn? f (W f name))
  fieldsSize : m'.fields.size = m.fields.size
  fields : ∀ i name, Option.Rel (ValueLike K W m.frames)
    ((m.fields.getD i .empty).find? name) ((m'.fields.getD i .empty).find? name)
  nextIdentity : m'.nextIdentity = m.nextIdentity
  current : m'.current = m.current
  depth : m'.depth = m.depth
  ticks : m'.ticks = m.ticks
  sink : m'.sink = m.sink

end Lox
