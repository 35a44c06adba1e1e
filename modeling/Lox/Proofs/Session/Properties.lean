import Lox.Proofs.Session.Recorded

/-!
# Properties over the history of a session

A property of an instance is what was last assigned to it in the history, whatever else
ran in between and under whichever name the instance was at hand.  Where nothing was
assigned, it is the nearest method of this name, bound to the instance by a function that
is new, and where there is no method either, reading it is an error.  Classes and
instances that were made stay what they are.
-/

namespace Lox

open Exec

/--
What reading a property yields, with this history behind it, in a machine in which the
instance is at hand: the value that was last assigned, as it is, or else a new function
that is the nearest method bound to the instance, or else an error.
-/
def ReadsProperty (before : List Event) (owner : Instance) (name : Token) (m : Machine)
    (result : EStateM.Result Interrupt Machine Value) : Prop :=
  match lastAssigned before owner.id name.lexeme with
  | some value => result = .ok value m
  | none =>
    match owner.cls.declarer? name.lexeme with
    | some home => ∃ method f m',
      home.layer.methods.find? name.lexeme = some method ∧
      method.declaration.name.lexeme = name.lexeme ∧
      Exec.bind method owner m = .ok f m' ∧ result = .ok (.function f) m' ∧
      f.declaration = method.declaration ∧
      m'.frames.findIn? f.closure "this" = some (.object owner) ∧
      ∀ s ∈ before, ∀ f', s.Shows (.function f') → f'.id ≠ f.id
    | none => ∃ cause : RuntimeCause,
      cause.message = "Undefined property '" ++ name.lexeme ++ "'." ∧
      result = .error (.error ⟨cause, name.line⟩) m

/-- The laws that instances and classes obey throughout a history. -/
structure StoreLaws (events : List Event) : Prop where
  /-- Reading a property depends on the assignments in the history. -/
  reads : ∀ before rules fuel object name m behind owner m₁,
    events = before ++ .ends rules ⟨fuel + 1, .evaluate (.get object name), m⟩ :: behind →
    Exec.evaluate rules fuel object m = .ok (.object owner) m₁ →
    ReadsProperty before owner name m₁ (Exec.evaluate rules (fuel + 1) (.get object name) m)
  /-- A field is what the assignments so far have made of it. -/
  fields : ∀ before s behind, events = before ++ s :: behind → ∀ owner name,
    s.machine.field? owner name = lastAssigned (before ++ [s]) owner name
  /-- From one event to the next, only a property assignment that ends changes a field. -/
  changes : ∀ before s s' behind, events = before ++ s :: s' :: behind → ∀ owner name,
    s'.machine.field? owner name = (s'.assigned? owner name).or (s.machine.field? owner name)
  /-- An instance is the same at all times, and so is its class. -/
  instances : ∀ s ∈ events, ∀ s' ∈ events, ∀ owner owner', s.Shows (.object owner) →
    s'.Shows (.object owner') → owner.id = owner'.id → owner = owner'
  /-- A class is the same at all times, with its methods and its superclass. -/
  classes : ∀ s ∈ events, ∀ s' ∈ events, ∀ c c', s.Shows (.class c) → s'.Shows (.class c') →
    c.id = c'.id → c = c'

variable {sink : Sink} {units : List Program} {events before behind : List Event}
  {session : Session} {g : Census} {rules : Rules} {x : Moment} {m : Machine}

/-! ### Reading -/

/-- Reading a property in a machine that a chronicle has come to. -/
theorem Chronicle.readsProperty (h : Chronicle (.initial sink) g before m) {owner : Instance}
    (howner : owner.cls.In g) (name : Token) :
    ReadsProperty before owner name m (getProperty owner name m) := by
  unfold ReadsProperty
  rw [← h.field?_eq owner.id name.lexeme]
  cases hfound : m.field? owner.id name.lexeme with
  | some value =>
    exact getProperty_of_field hfound
  | none =>
    change (m.fields.getD owner.id .empty).find? name.lexeme = none at hfound
    have hmethods := Class.findMethod?_eq owner.cls name.lexeme
    cases hhome : owner.cls.declarer? name.lexeme with
    | some home =>
      obtain ⟨method, hdeclared⟩ := Class.find?_of_declarer? hhome
      rw [hhome, Option.bind_some, hdeclared] at hmethods
      obtain ⟨-, hname, -⟩ := howner.findMethod? hmethods
      refine ⟨method, _, _, hdeclared, hname, bind_eq method owner m, ?_, rfl,
        findIn?_this_of_bind (bind_eq method owner m), ?_⟩
      · rw [getProperty_of_method hfound hmethods, bind_of_ok (bind_eq method owner m)]
        rfl
      · intro s hs f' hshows hsame
        exact Nat.ne_of_lt (h.function_id_lt hs hshows) hsame
    | none =>
      rw [hhome, Option.bind_none] at hmethods
      exact ⟨.undefinedProperty name.lexeme, rfl, getProperty_of_none hfound hmethods⟩

/-! ### Throughout a history -/

/-- In every history the laws hold of all instances and classes. -/
theorem Recorded.store_laws (h : Recorded sink units events session) : StoreLaws events := by
  obtain ⟨g, hg⟩ := h.chronicle
  have hfields : ∀ before s behind, events = before ++ s :: behind → ∀ owner name,
      s.machine.field? owner name = lastAssigned (before ++ [s]) owner name := by
    intro before s behind hevents owner name
    obtain ⟨g', -, hchronicle⟩ := hg.upTo hevents
    exact hchronicle.field?_eq owner name
  constructor
  · -- A read of a property.
    intro before rules fuel object name m behind owner m₁ hevents hobject
    obtain ⟨g', hchronicle, howner⟩ := h.read_object hevents hobject
    have hread : Exec.evaluate rules (fuel + 1) (.get object name) m =
        getProperty owner name m₁ := by
      simp only [Exec.evaluate]
      rw [bind_of_ok hobject]
    rw [hread]
    exact hchronicle.readsProperty howner.2 name
  · -- The fields at a state, by the assignments up to it.
    exact hfields
  · -- From one state to the next.
    intro before s s' behind hevents owner name
    have hevents' : events = (before ++ [s]) ++ s' :: behind := by rw [hevents]; simp
    rw [hfields _ _ _ hevents', lastAssigned_append, lastAssigned_singleton, hfields _ _ _ hevents]
  · -- Two instances with one number are the same, by the entry of the census under it.
    intro s hs s' hs' owner owner' hshows hshows' hid
    have howner : (Value.object owner).In g := hg.shown s hs _ hshows
    have howner' : (Value.object owner').In g := hg.shown s' hs' _ hshows'
    obtain ⟨i, c⟩ := owner
    obtain ⟨i', c'⟩ := owner'
    cases hid
    have hclass := howner.1.symm.trans howner'.1
    cases hclass
    rfl
  · -- The same of classes.
    intro s hs s' hs' c c' hshows hshows' hid
    have hc : c.In g := hg.shown s hs _ hshows
    have hc' : c'.In g := hg.shown s' hs' _ hshows'
    have hid' : c.layer.id = c'.layer.id := hid
    have hmade := hc.1
    rw [hid'] at hmade
    have hsame := hmade.symm.trans hc'.1
    obtain ⟨layer, inherited⟩ := c
    obtain ⟨layer', inherited'⟩ := c'
    cases hsame
    rfl

/-- A method that is stored in a field of its own instance, and read from there. -/
def storedMethod : String := "class A \x7b m() \x7b \x7d \x7d var a = A(); a.x = a.m; a.x; a.m;"

/-- A function was assigned to this property of the first instance. -/
def storesFunction (events : List Event) (name : String) : Bool :=
  match lastAssigned events 0 name with
  | some (.function _) => true
  | _ => false

theorem storedMethod_obeys :
    ∃ program n, Program.compile storedMethod 0 = (.ok program, n) ∧
      let events := ((Session.initial .unlimited).start 12 program).trace
        ⟨1024, .byDistance, fun _ => 0⟩
      StoreLaws events ∧ storesFunction events "x" = true := by
  have hruns : (Program.compile storedMethod 0).1.toOption.any (fun program =>
      storesFunction (((Session.initial .unlimited).start 12 program).trace
        ⟨1024, .byDistance, fun _ => 0⟩) "x") = true := by decide +kernel
  obtain ⟨program, n, hcompile, hstores⟩ := Program.exists_of_any hruns
  have hrecorded := Recorded.first .unlimited hcompile ⟨1024, .byDistance, fun _ => 0⟩ 12
  exact ⟨program, n, hcompile, hrecorded.store_laws, hstores⟩

end Lox
