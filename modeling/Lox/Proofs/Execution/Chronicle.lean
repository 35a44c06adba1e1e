import Lox.Proofs.Execution.Course
import Lox.Proofs.Execution.Functions

/-!
# Chronicles

A chronicle is a history of events together with the machine at hand, and with a census
of all that was made on the way.  From one event to the next, a field of an instance only
changes where a property assignment to it has ended, and then to the value assigned.  So
a field is what the last assignment in the history says, and whatever was ever seen in a
machine, given to a task or yielded by one is in the census.
-/

namespace Lox

open Exec

/-! ### What an event shows -/

def Flow.values : Flow → List Value
  | .returning value => [value]
  | _ => []

def Exec.yieldOf {α : Type} (values : α → List Value) :
    EStateM.Result Interrupt Machine α → List Value
  | .ok a _ => values a
  | .error _ _ => []

def Task.given : Task → List Value
  | .call callee arguments _ => callee :: arguments
  | .callFunction f arguments _ => .function f :: arguments
  | _ => []

namespace Moment

def yielded (rules : Rules) (x : Moment) : List Value :=
  match x.task with
  | .evaluate e => yieldOf (fun value => [value]) (Exec.evaluate rules x.fuel e x.machine)
  | .evaluateEach es => yieldOf id (Exec.evaluateEach rules x.fuel es x.machine)
  | .call callee arguments line =>
    yieldOf (fun value => [value]) (Exec.call rules x.fuel callee arguments line x.machine)
  | .callFunction f arguments line =>
    yieldOf (fun value => [value]) (Exec.callFunction rules x.fuel f arguments line x.machine)
  | .execute s => yieldOf Flow.values (Exec.execute rules x.fuel s x.machine)
  | .executeEach ss => yieldOf Flow.values (Exec.executeEach rules x.fuel ss x.machine)
  | .iterate condition body increment =>
    yieldOf Flow.values (Exec.iterate rules x.fuel condition body increment x.machine)

/-- A property assignment that is completed: the instance, the name, and the value. -/
def assignment? (rules : Rules) : Moment → Option (Instance × String × Value)
  | ⟨fuel + 1, .evaluate (.set object name value), m⟩ =>
    match Exec.evaluate rules fuel object m,
      Exec.evaluate rules (fuel + 1) (.set object name value) m with
    | .ok (.object owner) _, .ok result _ => some (owner, name.lexeme, result)
    | _, _ => none
  | _ => none

end Moment

namespace Event

def values : Event → List Value
  | begins _ x => x.task.given
  | ends rules x => x.yielded rules

/-- The value that was assigned to a property, if it is a property assignment that ends. -/
def assigned? (owner : Identity) (name : String) : Event → Option Value
  | begins _ _ => none
  | ends rules x =>
    (x.assignment? rules).bind fun (i, p, value) =>
      if i.id = owner ∧ p = name then some value else none

/-- The value is there at this event, be it only as a part of another one. -/
inductive Shows (s : Event) : Value → Prop where
  | handled {value : Value} : value ∈ s.values → Shows s value
  | held {value : Value} : s.machine.Holds value → Shows s value
  | cls {owner : Instance} : Shows s (.object owner) → Shows s (.class owner.cls)
  | superclass {c parent : Class} : Shows s (.class c) → c.superclass? = some parent →
      Shows s (.class parent)
  | method {c : Class} {name : String} {f : Function} : Shows s (.class c) →
      c.layer.methods.find? name = some f → Shows s (.function f)

end Event

def lastAssigned (events : List Event) (owner : Identity) (name : String) : Option Value :=
  (events.filterMap (Event.assigned? owner name)).getLast?

theorem lastAssigned_append (events events' : List Event) (owner : Identity) (name : String) :
    lastAssigned (events ++ events') owner name =
      (lastAssigned events' owner name).or (lastAssigned events owner name) := by
  rw [lastAssigned, List.filterMap_append, List.getLast?_append]
  rfl

theorem lastAssigned_singleton (s : Event) (owner : Identity) (name : String) :
    lastAssigned [s] owner name = s.assigned? owner name := by
  unfold lastAssigned
  cases h : s.assigned? owner name <;> simp [h]

/-! ### Chronicles -/

/-- A machine to begin with, and a census of all that was made for it. -/
structure Outset where
  census : Census
  machine : Machine
  made : machine.In census

def Outset.initial (sink : Sink) : Outset := ⟨.empty, .initial sink, Machine.in_initial sink⟩

/--
The function was made by a task that has begun.  A declaration binds a name in the current
frame, so this frame has to be there.
-/
inductive Arises (events : List Event) (f : Function) : Prop where
  | declared {rules : Rules} {x : Moment} : .begins rules x ∈ events → x.task.IsCode →
      (x.machine.current < x.machine.frames.size → ∃ m, Makes rules x f m) → Arises events f
  | bound {rules : Rules} {x : Moment} {method : Function} : .begins rules x ∈ events →
      BindsMethod rules x method f → Arises events f

theorem Arises.mono {events events' : List Event} {f : Function} (h : Arises events f)
    (hevents : events ⊆ events') : Arises events' f := by
  cases h with
  | declared hx hcode hmakes => exact .declared (hevents hx) hcode hmakes
  | bound hx hbinds => exact .bound (hevents hx) hbinds

/-- The events have led to the machine, and all that was made is in the census. -/
inductive Chronicle (o : Outset) : Census → List Event → Machine → Prop where
  | start : Chronicle o o.census [] o.machine
  /-- Between two events the fields stay as they are, and functions are made by tasks only. -/
  | moves {g g' : Census} {events : List Event} {m m' : Machine} : Chronicle o g events m →
      g.Within g' → m'.In g' → (∀ owner name, m'.field? owner name = m.field? owner name) →
      (∀ f : Function, f.In g' → f.In g ∨ Arises events f) → Chronicle o g' events m'
  | event {g : Census} {events : List Event} {m : Machine} {s : Event} : Chronicle o g events m →
      s.machine.In g → (∀ value ∈ s.values, value.In g) →
      (∀ owner name, s.machine.field? owner name =
        (s.assigned? owner name).or (m.field? owner name)) →
      Chronicle o g (events ++ [s]) s.machine

variable {o : Outset} {g g' : Census} {events : List Event} {m : Machine} {s : Event}
  {value : Value}

/-- Whatever an event shows is in the census. -/
theorem Event.Shows.In (h : s.Shows value) (hmachine : s.machine.In g)
    (hvalues : ∀ value ∈ s.values, value.In g) : value.In g := by
  induction h with
  | handled hmem => exact hvalues _ hmem
  | held hheld => exact hmachine.held _ hheld
  | cls _ ih => exact ih.2
  | superclass _ hparent ih => exact Class.In.superclass? ih hparent
  | method _ hf ih => exact (ih.2.1 _ _ hf).1

namespace Chronicle

theorem In (h : Chronicle o g events m) : m.In g := by
  cases h with
  | start => exact o.made
  | moves _ _ hm => exact hm
  | event _ hm => exact hm

/-- A field is what was last assigned to it, or what it was at the outset. -/
theorem field?_eq_or (h : Chronicle o g events m) (owner : Identity) (name : String) :
    m.field? owner name = (lastAssigned events owner name).or (o.machine.field? owner name) := by
  induction h with
  | start => rfl
  | moves _ _ _ hfields _ ih => rw [hfields, ih]
  | event _ _ _ hfields ih =>
    rw [hfields, ih, lastAssigned_append, lastAssigned_singleton, Option.or_assoc]

/-- In a new session there are no fields to begin with. -/
theorem field?_eq {sink : Sink} (h : Chronicle (.initial sink) g events m) (owner : Identity)
    (name : String) : m.field? owner name = lastAssigned events owner name :=
  (h.field?_eq_or owner name).trans Option.or_none

theorem within (h : Chronicle o g events m) : o.census.Within g := by
  induction h with
  | start => exact .refl _
  | moves _ hle _ _ _ ih => exact ih.trans hle
  | event _ _ _ _ ih => exact ih

/-- A function was there at the outset, or a task has made it. -/
theorem arises (h : Chronicle o g events m) (f : Function) (hf : f.In g) :
    f.In o.census ∨ Arises events f := by
  induction h with
  | start => exact .inl hf
  | moves _ _ _ _ hmade ih =>
    rcases hmade f hf with hold | harises
    · exact ih hold
    · exact .inr harises
  | event _ _ _ _ ih =>
    exact (ih hf).imp_right fun h => h.mono (List.subset_append_left _ _)

/-- What was there at an earlier event is in the census. -/
theorem shown (h : Chronicle o g events m) :
    ∀ s ∈ events, ∀ value, s.Shows value → value.In g := by
  induction h with
  | start => exact List.forall_mem_nil _
  | moves _ hle _ _ _ ih => exact fun s hs value hshows => (ih s hs value hshows).mono hle
  | @event g events m s _ hm hvalues _ ih =>
    intro s' hs' value hshows
    rcases List.mem_append.mp hs' with hs' | hs'
    · exact ih s' hs' value hshows
    · cases List.mem_singleton.mp hs'
      exact hshows.In hm hvalues

/-- A function of the history has a number that was given already. -/
theorem function_id_lt (h : Chronicle o g events m) (hs : s ∈ events) {f : Function}
    (hshows : s.Shows (.function f)) : f.id < m.nextIdentity := by
  have hmade : f.In g := h.shown s hs _ hshows
  rw [← h.In.made]
  exact (List.getElem?_eq_some_iff.mp hmade).1

/-- An instance of the history has fields already. -/
theorem instance_id_lt (h : Chronicle o g events m) (hs : s ∈ events) {owner : Instance}
    (hshows : s.Shows (.object owner)) : owner.id < m.fields.size := by
  have hmade : (Value.object owner).In g := h.shown s hs _ hshows
  rw [← h.In.instances]
  exact (List.getElem?_eq_some_iff.mp hmade.1).1

/-- Up to each of its events, a chronicle is one. -/
theorem upTo (h : Chronicle o g events m) {before behind : List Event}
    (hevents : events = before ++ s :: behind) :
    ∃ g', g'.Within g ∧ Chronicle o g' (before ++ [s]) s.machine := by
  induction h generalizing behind with
  | start =>
    cases before <;> cases hevents
  | moves _ hle _ _ _ ih =>
    obtain ⟨g', hle', hprefix⟩ := ih hevents
    exact ⟨g', hle'.trans hle, hprefix⟩
  | @event g events m s' hprefix hm hvalues hfields ih =>
    rcases List.eq_nil_or_concat behind with rfl | ⟨behind, last, rfl⟩
    · obtain ⟨rfl, hlast⟩ := List.append_inj' hevents rfl
      cases hlast
      exact ⟨g, .refl g, .event hprefix hm hvalues hfields⟩
    · rw [List.concat_eq_append, ← List.cons_append, ← List.append_assoc] at hevents
      exact ih (List.append_inj' hevents rfl).1

/-- At an event, all that it shows is in the census of that time. -/
theorem of_mem (h : Chronicle o g events m) (hs : s ∈ events) :
    ∃ g', g'.Within g ∧ o.census.Within g' ∧ s.machine.In g' ∧
      ∀ value, s.Shows value → value.In g' := by
  obtain ⟨before, behind, hevents⟩ := List.append_of_mem hs
  obtain ⟨g', hle, hprefix⟩ := h.upTo hevents
  have hlast : s ∈ before ++ [s] := List.mem_append_right _ List.mem_cons_self
  exact ⟨g', hle, hprefix.within, hprefix.In, hprefix.shown s hlast⟩

end Chronicle

end Lox
