import Lox.Proofs.Execution.Agreement
import Lox.Proofs.Execution.Methods
import Lox.Proofs.Execution.Similar
import Lox.Proofs.Session.Reached

/-!
# What was made so far

Functions and classes are numbered in the order in which they are made, and so are
instances.  A census lists what has which number.  It only grows, so a value that is in
it is in every later one: a number never stands for something else, a class keeps its
methods and its superclass, and an instance keeps its class.
-/

namespace Lox

open Exec

inductive Made where
  | function (f : Function)
  | class (c : Class)
  /-- A method of a class that declares another one of this name behind it. -/
  | replaced

/-- The functions and classes by their numbers, and the classes of the instances by theirs. -/
structure Census where
  made : List Made
  instances : List Class

namespace Census

def empty : Census := ⟨[], []⟩

def make (g : Census) (new : Made) : Census := { g with made := g.made ++ [new] }

def create (g : Census) (c : Class) : Census := { g with instances := g.instances ++ [c] }

structure Within (g g' : Census) : Prop where
  made : g.made <+: g'.made
  instances : g.instances <+: g'.instances

variable {g g' g'' : Census}

/-- What has a place in a list has it in a longer one. -/
theorem getElem?_of_prefix {α : Type} {l l' : List α} (h : l <+: l') {i : Nat} {a : α}
    (ha : l[i]? = some a) : l'[i]? = some a := by
  obtain ⟨rest, rfl⟩ := h
  rw [List.getElem?_append_left (List.getElem?_eq_some_iff.mp ha).1]
  exact ha

namespace Within

theorem refl (g : Census) : Within g g := ⟨List.prefix_refl _, List.prefix_refl _⟩

theorem trans (h : Within g g') (h' : Within g' g'') : Within g g'' :=
  ⟨h.made.trans h'.made, h.instances.trans h'.instances⟩

theorem make (g : Census) (new : Made) : Within g (g.make new) :=
  ⟨List.prefix_append _ _, List.prefix_refl _⟩

theorem create (g : Census) (c : Class) : Within g (g.create c) :=
  ⟨List.prefix_refl _, List.prefix_append _ _⟩

theorem getElem?_made (h : Within g g') {id : Nat} {new : Made} (hnew : g.made[id]? = some new) :
    g'.made[id]? = some new :=
  getElem?_of_prefix h.made hnew

theorem getElem?_instances (h : Within g g') {id : Nat} {c : Class}
    (hc : g.instances[id]? = some c) : g'.instances[id]? = some c :=
  getElem?_of_prefix h.instances hc

end Within

end Census

/-! ### Values -/

/-- The function is the one that has its number. -/
def Function.In (g : Census) (f : Function) : Prop := g.made[f.id]? = some (.function f)

/-- The methods have the names that they are declared with, and initializers are marked. -/
def ClassLayer.MethodsIn (g : Census) (layer : ClassLayer) : Prop :=
  ∀ name f, layer.methods.find? name = some f →
    f.In g ∧ f.declaration.name.lexeme = name ∧ f.isInitializer = f.declaration.isInitializer

/-- Every class of a chain is the one that has its number. -/
def ClassLayer.EachIn (g : Census) : List ClassLayer → Prop
  | [] => True
  | layer :: inherited =>
    g.made[layer.id]? = some (.class ⟨layer, inherited⟩) ∧ layer.MethodsIn g ∧ EachIn g inherited

/-- The class and those it inherits from are the ones that have their numbers. -/
def Class.In (g : Census) (c : Class) : Prop := ClassLayer.EachIn g c.chain

/-- What has a number is what the census says. -/
def Value.In (g : Census) : Value → Prop
  | .function f => f.In g
  | .class c => c.In g
  | .object owner => g.instances[owner.id]? = some owner.cls ∧ owner.cls.In g
  | _ => True

variable {g g' : Census} {c : Class} {f : Function} {name : String}

theorem Function.In.mono (hle : g.Within g') (h : f.In g) : f.In g' := hle.getElem?_made h

theorem ClassLayer.EachIn.mono (hle : g.Within g') {chain : List ClassLayer}
    (h : EachIn g chain) : EachIn g' chain := by
  induction chain with
  | nil => trivial
  | cons layer inherited ih =>
    refine ⟨hle.getElem?_made h.1, ?_, ih h.2.2⟩
    intro name f hf
    obtain ⟨hin, hname⟩ := h.2.1 name f hf
    exact ⟨hin.mono hle, hname⟩

theorem Class.In.mono (hle : g.Within g') (h : c.In g) : c.In g' := ClassLayer.EachIn.mono hle h

theorem Value.In.mono (hle : g.Within g') {value : Value} (h : value.In g) : value.In g' := by
  cases value with
  | function f => exact Function.In.mono hle h
  | «class» c => exact Class.In.mono hle h
  | object owner => exact ⟨hle.getElem?_instances h.1, Class.In.mono hle h.2⟩
  | _ => trivial

/-- Plain values have no number. -/
theorem Value.IsPlain.In {value : Value} (h : value.IsPlain) (g : Census) : value.In g := by
  cases value with
  | function f => cases h
  | «class» c => cases h
  | object owner => cases h
  | _ => trivial

/-- The superclass of a class that was made was made as well. -/
theorem Class.In.superclass? (h : c.In g) {parent : Class} (hparent : c.superclass? = some parent) :
    parent.In g := by
  obtain ⟨layer, inherited⟩ := c
  cases inherited with
  | nil => cases hparent
  | cons layer' inherited =>
    cases hparent
    exact h.2.2

/-- A class that declares a method of the chain was made as well. -/
theorem Class.In.declarer? (h : c.In g) {home : Class} (hhome : c.declarer? name = some home) :
    home.In g := by
  unfold Class.declarer? at hhome
  unfold Class.In at h
  generalize c.chain = chain at h hhome
  induction chain with
  | nil => cases hhome
  | cons layer inherited ih =>
    rw [ClassLayer.nearest?] at hhome
    split at hhome
    · cases hhome
      exact h
    · exact ih h.2.2 hhome

/-- Each method of a class has its name, whichever class of the chain declares it. -/
theorem Class.In.findMethod? (h : c.In g) (hf : c.findMethod? name = some f) :
    f.In g ∧ f.declaration.name.lexeme = name ∧ f.isInitializer = f.declaration.isInitializer := by
  obtain ⟨home, hhome, hmethod⟩ := Class.declarer?_of_findMethod? hf
  exact (h.declarer? hhome).2.1 name f hmethod

/-! ### Machines -/

namespace Machine

def field? (m : Machine) (owner : Identity) (name : String) : Option Value :=
  (m.fields.getD owner .empty).find? name

/-- The value is bound in a frame, or it is a field of an instance. -/
def Holds (m : Machine) (value : Value) : Prop :=
  (∃ f name, m.frames.findIn? f name = some value) ∨ ∃ owner name, m.field? owner name = some value

/-- All that the machine holds is in the census, and what it makes next has the next number. -/
structure In (g : Census) (m : Machine) : Prop where
  made : g.made.length = m.nextIdentity
  instances : g.instances.length = m.fields.size
  held : ∀ value, m.Holds value → value.In g

variable {m m' : Machine} {value : Value}

theorem in_initial (sink : Sink) : (initial sink).In .empty := by
  refine ⟨rfl, rfl, ?_⟩
  rintro value (⟨f, name, hbound⟩ | ⟨owner, name, hfield⟩)
  · obtain ⟨native, rfl⟩ := findIn?_initialFrames hbound
    trivial
  · cases hfield

namespace In

theorem getAt (h : m.In g) {f : FrameId} {distance line : Nat}
    (hget : m.frames.getAt f distance name line = .ok value) : value.In g := by
  unfold Frames.getAt at hget
  split at hget
  · rename_i found hfound
    obtain ⟨frame, -, hbound⟩ := Option.bind_eq_some_iff.mp hfound
    cases hget
    exact h.held _ (.inl ⟨frame, name, hbound⟩)
  · cases hget

theorem get (h : m.In g) {f : FrameId} {line : Nat}
    (hget : m.frames.get f name line = .ok value) : value.In g := by
  unfold Frames.get at hget
  split at hget
  · rename_i found hfound
    obtain ⟨frame, -, hbound⟩ := Option.bind_eq_some_iff.mp hfound
    cases hget
    exact h.held _ (.inl ⟨frame, name, hbound⟩)
  · cases hget

/-- Only frames, fields and numbers matter. -/
theorem of_eq (h : m.In g) (hframes : m'.frames = m.frames) (hfields : m'.fields = m.fields)
    (hnext : m'.nextIdentity = m.nextIdentity) : m'.In g := by
  refine ⟨h.made.trans hnext.symm, h.instances.trans (by rw [hfields]), ?_⟩
  rintro value (⟨f, name, hbound⟩ | ⟨owner, name, hfield⟩)
  · rw [hframes] at hbound
    exact h.held _ (.inl ⟨f, name, hbound⟩)
  · unfold field? at hfield
    rw [hfields] at hfield
    exact h.held _ (.inr ⟨owner, name, hfield⟩)

theorem define (h : m.In g) (frame : FrameId) (name : String) (hvalue : value.In g) :
    In g { m with frames := m.frames.define frame name value } := by
  refine ⟨h.made, h.instances, ?_⟩
  rintro other (⟨f, name', hbound⟩ | hfield)
  · rcases Frames.findIn?_define_cases hbound with rfl | hbound
    · exact hvalue
    · exact h.held _ (.inl ⟨f, name', hbound⟩)
  · exact h.held _ (.inr hfield)

theorem child (h : m.In g) (outer : FrameId) :
    In g { m with frames := m.frames.child outer } := by
  refine ⟨h.made, h.instances, ?_⟩
  rintro value (⟨f, name, hbound⟩ | hfield)
  · have hold : m.frames.findIn? f name = some value := by
      rw [← Frames.findIn?_child m.frames outer f name]
      exact hbound
    exact h.held _ (.inl ⟨f, name, hold⟩)
  · exact h.held _ (.inr hfield)

/-- What is made takes the next number. -/
theorem make (h : m.In g) (new : Made) :
    In (g.make new) { m with nextIdentity := m.nextIdentity + 1 } ∧
      (g.make new).made[m.nextIdentity]? = some new := by
  constructor
  · refine ⟨?_, h.instances, fun value hvalue => (h.held value hvalue).mono (.make g new)⟩
    rw [Census.make, List.length_append, h.made]
    rfl
  · rw [Census.make, ← h.made]
    exact List.getElem?_concat_length

/-- A new instance has no fields. -/
theorem field?_push (m : Machine) (owner : Identity) (name : String) :
    field? { m with fields := m.fields.push .empty } owner name = m.field? owner name := by
  unfold field?
  exact Bindings.find?_getD_push m.fields owner name

/-- An instance takes the next number of its own kind. -/
theorem create (h : m.In g) {c : Class} (hc : c.In g) :
    In (g.create c) { m with fields := m.fields.push .empty } ∧
      (Value.object ⟨m.fields.size, c⟩).In (g.create c) := by
  constructor
  · refine ⟨h.made, ?_, ?_⟩
    · rw [Census.create, List.length_append, h.instances, Array.size_push]
      rfl
    · rintro value (hbound | ⟨owner, name, hfield⟩)
      · exact (h.held _ (.inl hbound)).mono (.create g c)
      · rw [field?_push] at hfield
        exact (h.held _ (.inr ⟨owner, name, hfield⟩)).mono (.create g c)
  · refine ⟨?_, hc.mono (.create g c)⟩
    rw [Census.create, ← h.instances]
    exact List.getElem?_concat_length

/-- Setting a field of an instance changes this field and nothing else. -/
theorem field?_modify (h : m.In g) {owner : Instance} (howner : (Value.object owner).In g)
    (name : String) (value : Value) (i : Identity) (p : String) :
    field? { m with fields := m.fields.modify owner.id (·.insert name value) } i p =
      if owner.id = i ∧ name = p then some value else m.field? i p := by
  have hlt : owner.id < m.fields.size := by
    rw [← h.instances]
    exact (List.getElem?_eq_some_iff.mp howner.1).1
  unfold field?
  rw [Bindings.find?_getD_modify]
  by_cases hi : owner.id = i
  · subst hi
    simp [hlt, eq_comm]
  · simp [hi, Ne.symm hi]

theorem modify (h : m.In g) {owner : Instance} (howner : (Value.object owner).In g)
    (name : String) (hvalue : value.In g) :
    In g { m with fields := m.fields.modify owner.id fun fields => fields.insert name value } := by
  refine ⟨h.made, h.instances.trans (Array.size_modify ..).symm, ?_⟩
  rintro other (hbound | ⟨i, p, hfield⟩)
  · exact h.held _ (.inl hbound)
  · rw [h.field?_modify howner] at hfield
    split at hfield
    · cases hfield
      exact hvalue
    · exact h.held _ (.inr ⟨i, p, hfield⟩)

end In

end Machine

end Lox
