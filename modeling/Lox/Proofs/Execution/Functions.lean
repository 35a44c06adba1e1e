import Lox.Proofs.Execution.Activations
import Lox.Proofs.Execution.Census

/-!
# How functions come about

A task makes functions in two ways: it executes the declaration of a function or of a
class, or it binds a method of a class to an instance.  A bound method has the code of the
method.  Of the methods that a class declares, those are lost that are declared again
under the same name; all others take part in the census.
-/

namespace Lox

open Exec

variable {rules : Rules} {x : Moment} {g g' : Census} {m m' : Machine} {f method : Function}

/-- A task binds a method to an instance, and so makes a function of it. -/
inductive BindsMethod (rules : Rules) : Moment → Function → Function → Prop where
  | property {fuel m object name owner m₁ method f m₂} :
      Exec.evaluate rules fuel object m = .ok (.object owner) m₁ →
      m₁.field? owner.id name.lexeme = none → owner.cls.findMethod? name.lexeme = some method →
      Exec.bind method owner m₁ = .ok f m₂ →
      BindsMethod rules ⟨fuel + 1, .evaluate (.get object name), m⟩ method f
  | super {fuel m place name distance parent owner method f m'} :
      m.distances[place.id]? = some distance →
      m.frames.getAt m.current distance "super" place.line = .ok (.class parent) →
      m.frames.getAt m.current (distance - 1) "this" place.line = .ok (.object owner) →
      parent.findMethod? name.lexeme = some method → Exec.bind method owner m = .ok f m' →
      BindsMethod rules ⟨fuel + 1, .evaluate (.super place name), m⟩ method f
  | initializer {fuel m c arguments line owner m₁ method f m₂} :
      newInstance c m = .ok owner m₁ → c.initializer? = some method →
      Exec.bind method owner m₁ = .ok f m₂ →
      BindsMethod rules ⟨fuel + 1, .call (.class c) arguments line, m⟩ method f

theorem Exec.of_lift_ok {α : Type} {result : Except RuntimeError α} {a : α}
    (h : lift result m = .ok a m') : result = .ok a ∧ m' = m := by
  cases result with
  | ok a' =>
    cases h
    exact ⟨rfl, rfl⟩
  | error e => cases h

theorem Exec.of_bind {owner : Instance} (h : Exec.bind method owner m = .ok f m') :
    f.id = m.nextIdentity ∧ f.declaration = method.declaration := by
  rw [Exec.bind_eq] at h
  cases h
  exact ⟨rfl, rfl⟩

/-- A bound method has the code of the method. -/
theorem BindsMethod.declaration (h : BindsMethod rules x method f) : f.declaration = method.declaration := by
  cases h with
  | property _ _ _ hbind | super _ _ _ _ hbind | initializer _ _ hbind => exact (of_bind hbind).2

/-- Where a property yields a method, it is bound. -/
theorem Exec.getProperty_of_findMethod? {owner : Instance} {name : Token}
    (hfield : m.field? owner.id name.lexeme = none)
    (hmethod : owner.cls.findMethod? name.lexeme = some method)
    (hbind : Exec.bind method owner m = .ok f m') :
    getProperty owner name m = .ok (.function f) m' := by
  unfold Machine.field? at hfield
  rw [getProperty_of_method hfield hmethod]
  exact bind_of_ok hbind

/-- Where `super` finds a method, it is bound to the instance at hand. -/
theorem Exec.getSuper_of_findMethod? {place : Occurrence} {name : Token} {distance : Nat}
    {parent : Class} {owner : Instance} (hd : m.distances[place.id]? = some distance)
    (hparent : m.frames.getAt m.current distance "super" place.line = .ok (.class parent))
    (howner : m.frames.getAt m.current (distance - 1) "this" place.line = .ok (.object owner))
    (hmethod : parent.findMethod? name.lexeme = some method)
    (hbind : Exec.bind method owner m = .ok f m') :
    getSuper place name m = .ok (.function f) m' := by
  have hget : (get : Exec Machine) m = .ok m m := rfl
  have hlift : ∀ value : Value, lift (.ok value) m = .ok value m := fun _ => rfl
  rw [getSuper, bind_of_ok hget, hd]
  simp only [hparent, howner]
  rw [bind_of_ok (hlift _), bind_of_ok (hlift _)]
  simp only [hmethod]
  exact bind_of_ok hbind

/-! ### Numbers -/

theorem Exec.machine_of_readVariable {place : Occurrence} {value : Value}
    (h : readVariable rules place m = .ok value m') : m' = m := by
  have hget : (MonadState.get : Exec Machine) m = .ok m m := rfl
  rw [readVariable] at h
  cases hlookup : rules.lookup with
  | byDistance =>
    rw [hlookup] at h
    change readResolved place m = _ at h
    rw [readResolved, bind_of_ok hget] at h
    cases hd : m.distances[place.id]? with
    | some d =>
      rw [hd] at h
      exact (of_lift_ok h).2
    | none =>
      rw [hd] at h
      exact (of_lift_ok h).2
  | bySearch =>
    rw [hlookup] at h
    exact (of_lift_ok h).2

/-- In front of its methods a class takes no number. -/
theorem Exec.nextIdentity_of_methodFrame {name : String} {superclass : Option Occurrence}
    {parent : Option Class} {frame : FrameId} {m₁ m₂ m₃ : Machine}
    (hdefine : define name .nil m = .ok () m₁)
    (hsuper : superclassOf rules superclass m₁ = .ok parent m₂)
    (hframe : methodFrame parent m₂ = .ok frame m₃) : m₃.nextIdentity = m.nextIdentity := by
  have hsame : m₂ = m₁ := by
    cases superclass with
    | none =>
      cases hsuper
      rfl
    | some place =>
      obtain ⟨c, -, hread⟩ := (of_superclassOf hsuper).2 place rfl
      exact machine_of_readVariable hread
  subst hsame
  cases hdefine
  cases parent with
  | none | some =>
    cases hframe
    rfl

/-- The methods of a class that was declared, with the numbers from the next free one on. -/
theorem Exec.methods_of_declareClass {name : Token} {superclass : Option Occurrence}
    {methods : List FunctionDecl} {c : Class} (hcurrent : m.current < m.frames.size)
    (h : declareClass rules name superclass methods m = .ok () m')
    (hfound : m'.frames.findIn? m.current name.lexeme = some (.class c)) :
    ∃ frame m₁ m₂, makeMethods frame methods m₁ = .ok c.layer.methods m₂ ∧
      m₁.nextIdentity = m.nextIdentity := by
  have hkept : Restored m m' := (Restores.declareClass rules name superclass methods).of_ok h
  obtain ⟨m₁, m₂, m₃, m₄, parent, frame, own, id, hdefine, hsuper, hframe, hown, hbound⟩ :=
    of_declareClass_ok h
  have hlt := Nat.lt_of_lt_of_le hcurrent hkept.size_le
  rw [← hkept.current] at hfound hlt
  cases hbound
  rw [Frames.size_define] at hlt
  rw [Frames.findIn?_define_self hlt] at hfound
  cases hfound
  exact ⟨frame, m₃, m₄, hown, nextIdentity_of_methodFrame hdefine hsuper hframe⟩

/-- A function has a number that was free when its declaration began. -/
theorem Makes.nextIdentity_le (hmakes : Makes rules x f m)
    (hcurrent : x.machine.current < x.machine.frames.size) : x.machine.nextIdentity ≤ f.id := by
  cases hmakes with
  | function hrun hfound =>
    cases hrun
    rw [Frames.findIn?_define_self hcurrent] at hfound
    cases hfound
    exact Nat.le_refl _
  | @method _ _ _ _ m _ _ _ key _ hrun hfound hmethod =>
    simp only [Exec.execute] at hrun
    obtain ⟨⟨⟩, m', hdeclare, hflow⟩ := of_bind_ok hrun
    cases hflow
    obtain ⟨frame, m₁, m₂, hown, hfree⟩ := methods_of_declareClass hcurrent hdeclare hfound
    rw [← hfree]
    exact forall_makeMethods (P := fun _ f => m₁.nextIdentity ≤ f.id) (fun _ _ _ hid => hid) hown
      key f hmethod

/-! ### The methods of a class -/

theorem Function.In.of_make {new : Made} (h : f.In (g.make new)) :
    f.In g ∨ new = .function f := by
  unfold Function.In Census.make at h
  rcases Nat.lt_or_ge f.id g.made.length with hlt | hge
  · rw [List.getElem?_append_left hlt] at h
    exact .inl h
  · rw [List.getElem?_append_right hge] at h
    obtain ⟨hlt, hnew⟩ := List.getElem?_eq_some_iff.mp h
    rw [List.getElem_singleton] at hnew
    exact .inr hnew

/-- The methods that are there so far, as far as no later one replaces them. -/
def Census.Keeps (g : Census) (methods : Bindings Function) (rest : List FunctionDecl) : Prop :=
  ∀ name f, methods.find? name = some f → (∀ d ∈ rest, d.name.lexeme ≠ name) →
    f.In g ∧ f.declaration.name.lexeme = name ∧ f.isInitializer = f.declaration.isInitializer

/-- What the census has for a method: the method, unless a later one replaces it. -/
def FunctionDecl.entry (d : FunctionDecl) (rest : List FunctionDecl) (f : Function) : Made :=
  if ∀ e ∈ rest, e.name.lexeme ≠ d.name.lexeme then .function f else .replaced

theorem Census.keeps_empty (g : Census) (rest : List FunctionDecl) : g.Keeps .empty rest :=
  fun _ _ hf => by cases hf

theorem Census.Keeps.insert {methods : Bindings Function} {d : FunctionDecl}
    {rest : List FunctionDecl} (h : g.Keeps methods (d :: rest)) (hm : m.In g) (frame : FrameId) :
    (g.make (d.entry rest ⟨m.nextIdentity, d, frame, d.isInitializer⟩)).Keeps
      (methods.insert d.name.lexeme ⟨m.nextIdentity, d, frame, d.isInitializer⟩) rest := by
  intro name f hf hrest
  rw [Bindings.find?_insert] at hf
  split at hf
  · rename_i hname
    subst hname
    cases hf
    have hnew := (hm.make (d.entry rest ⟨m.nextIdentity, d, frame, d.isInitializer⟩)).2
    rw [FunctionDecl.entry, if_pos hrest] at hnew ⊢
    exact ⟨hnew, rfl, rfl⟩
  · rename_i hname
    have hother : ∀ e ∈ d :: rest, e.name.lexeme ≠ name :=
      List.forall_mem_cons.mpr ⟨fun heq => hname heq.symm, hrest⟩
    obtain ⟨hin, hnamed⟩ := h name f hf hother
    exact ⟨hin.mono (.make g _), hnamed⟩

/-- A name that no declaration is left for keeps its method. -/
theorem Exec.find?_of_addMethods {frame : FrameId} {ds : List FunctionDecl}
    {methods own : Bindings Function} {name : String}
    (h : addMethods frame ds methods m = .ok own m') (hname : ∀ d ∈ ds, d.name.lexeme ≠ name) :
    own.find? name = methods.find? name := by
  induction ds generalizing methods m with
  | nil =>
    cases h
    rfl
  | cons d rest ih =>
    obtain ⟨hd, hrest⟩ := List.forall_mem_cons.mp hname
    rw [addMethods_cons_run] at h
    rw [ih h hrest, Bindings.find?_insert, if_neg (Ne.symm hd)]

/-- All methods are made, each has its name, and all that are in the census are kept. -/
theorem Machine.In.addMethods (h : m.In g) (frame : FrameId) {ds : List FunctionDecl}
    {methods : Bindings Function} (hkeeps : g.Keeps methods ds) :
    ∃ g' own m', Exec.addMethods frame ds methods m = .ok own m' ∧ g.Within g' ∧ m'.In g' ∧
      (∀ owner name, m'.field? owner name = m.field? owner name) ∧ g'.Keeps own [] ∧
      ∀ f, f.In g' → f.In g ∨ ∃ name, own.find? name = some f := by
  -- The induction is on the declarations that are left; `methods` holds those already made, which
  -- the census keeps unless a declaration to come has their name.
  induction ds generalizing methods g m with
  | nil => exact ⟨g, methods, m, rfl, .refl g, h, fun _ _ => rfl, hkeeps, fun _ => .inl⟩
  | cons d rest ih =>
    let f : Function := ⟨m.nextIdentity, d, frame, d.isInitializer⟩
    obtain ⟨g', own, m', hrun, hle, hm', hfields, hkept, hnew⟩ :=
      ih (h.make (d.entry rest f)).1 (hkeeps.insert h frame)
    refine ⟨g', own, m', ?_, (Census.Within.make g _).trans hle, hm', hfields, hkept, ?_⟩
    · rw [addMethods_cons_run]
      exact hrun
    · -- A function added is the one just made or comes from the rest.
      intro f' hf'
      rcases hnew f' hf' with hf' | hf'
      · rcases hf'.of_make with hold | hentry
        · exact .inl hold
        · -- The method is in the census, so no later one has its name.
          unfold FunctionDecl.entry at hentry
          split at hentry
          · rename_i hlast
            cases hentry
            refine .inr ⟨d.name.lexeme, ?_⟩
            rw [find?_of_addMethods hrun hlast, Bindings.find?_insert, if_pos rfl]
          · cases hentry
      · exact .inr hf'

end Lox
