import Lox.Proofs.Execution.Finals
import Lox.Proofs.Execution.Inside

/-!
# Methods and their classes

A method belongs to the class whose declaration it is part of, which is the nearest one
on the chain that has a method of this name.  The superclass of that class is the one
`super` refers to inside of the method.  Binding the method to an instance puts a frame
that stands for the instance within the one that stands for the superclass.
-/

namespace Lox

open Resolution Exec

/-! ### The class that declares a method -/

/-- The nearest class of a chain with a method of its own of this name. -/
def ClassLayer.nearest? (name : String) : List ClassLayer → Option Class
  | [] => none
  | layer :: inherited =>
    if (layer.methods.find? name).isSome then some ⟨layer, inherited⟩ else nearest? name inherited

namespace Class

def declarer? (c : Class) (name : String) : Option Class := ClassLayer.nearest? name c.chain

def superclass? (c : Class) : Option Class :=
  match c.inherited with
  | [] => none
  | layer :: inherited => some ⟨layer, inherited⟩

theorem superclass?_of_chain {c parent : Class} (h : parent.chain = c.inherited) :
    c.superclass? = some parent := by
  unfold superclass?
  rw [← h]
  rfl

/-- The nearest method is that of the class that declares it. -/
theorem findMethod?_eq (c : Class) (name : String) :
    c.findMethod? name = (c.declarer? name).bind fun home => home.layer.methods.find? name := by
  unfold findMethod? declarer?
  induction c.chain with
  | nil => rfl
  | cons layer inherited ih =>
    rw [List.findSome?_cons, ClassLayer.nearest?]
    cases hfound : layer.methods.find? name with
    | none => exact ih
    | some method => simp [hfound]

theorem declarer?_of_findMethod? {c : Class} {name : String} {method : Function}
    (h : c.findMethod? name = some method) :
    ∃ home, c.declarer? name = some home ∧ home.layer.methods.find? name = some method := by
  rw [findMethod?_eq] at h
  exact Option.bind_eq_some_iff.mp h

/-- The class that declares the nearest method of a name has one of its own. -/
theorem find?_of_declarer? {c home : Class} {name : String}
    (h : c.declarer? name = some home) :
    ∃ method, home.layer.methods.find? name = some method := by
  unfold declarer? at h
  generalize c.chain = chain at h
  induction chain with
  | nil => cases h
  | cons layer inherited ih =>
    rw [ClassLayer.nearest?] at h
    split at h
    · cases h
      exact Option.isSome_iff_exists.mp ‹_›
    · exact ih h

/-- The class that declares a method is on the chain, with all that it inherits from. -/
theorem chain_of_declarer? {c home : Class} {name : String} (h : c.declarer? name = some home) :
    ∃ before, c.chain = before ++ home.chain := by
  unfold declarer? at h
  generalize c.chain = chain at h ⊢
  induction chain with
  | nil => cases h
  | cons layer inherited ih =>
    rw [ClassLayer.nearest?] at h
    split at h
    · cases h
      exact ⟨[], rfl⟩
    · obtain ⟨before, hbefore⟩ := ih h
      exact ⟨layer :: before, by rw [hbefore, List.cons_append]⟩

end Class

variable {V : Visit → Prop} {rules : Rules} {frames frames' : Frames Value} {m m' : Machine}
  {g : FrameId} {outer : List Scope} {home : Class} {owner : Instance} {f : Function}

theorem ClassOk.declarer? {c : Class} (h : ClassOk V frames c) {name : String} {method : Function}
    (hhome : c.declarer? name = some home) (hmethod : home.layer.methods.find? name = some method) :
    MethodOk V frames home.inherited method := by
  obtain ⟨before, hchain⟩ := Class.chain_of_declarer? hhome
  exact h before home.layer home.inherited hchain name method hmethod

/-! ### Frames that stand for an instance -/

/--
The frame stands for an instance on which a method of the class runs, and the frame
around it for the superclass of that class, if the scopes are those of one that has one.
-/
structure Seat (home : Class) (owner : Instance) (frames : Frames Value) (g : FrameId)
    (outer : List Scope) : Prop where
  this : frames.findIn? g "this" = some (.object owner)
  super : ∀ rest, outer = superScope :: rest → ∃ around parent,
    frames.enclosing? g = some around ∧ frames.findIn? around "super" = some (.class parent) ∧
      home.superclass? = some parent

theorem Seat.grow (h : Seat home owner frames g outer) (hgrows : Grows frames frames') :
    Seat home owner frames' g outer := by
  refine ⟨hgrows.special _ _ _ not_isName_this h.this, ?_⟩
  intro rest hrest
  obtain ⟨around, parent, haround, hparent, hsuper⟩ := h.super rest hrest
  exact ⟨around, parent, hgrows.enclosing _ _ haround,
    hgrows.special _ _ _ not_isName_super hparent, hsuper⟩

/-- The function is a method of the class that is bound to the instance, or within one. -/
def Function.Belongs (home : Class) (owner : Instance) (f : Function) (m : Machine) : Prop :=
  ∃ V g outer routine r, (∀ v, V v → v.Known m.distances) ∧ Seat home owner m.frames g outer ∧
    RoutineOk V routine f.declaration r ∧ Stands m.frames g outer f.closure r.scopes

/-- The task is part of a method of the class that runs on the instance. -/
def Moment.Belongs (home : Class) (owner : Instance) (x : Moment) : Prop :=
  ∃ V g outer, (∀ v, V v → v.Known x.machine.distances) ∧
    Seat home owner x.machine.frames g outer ∧ x.task.Inside V g outer x.machine

theorem Function.Belongs.extend (h : f.Belongs home owner m) (hextends : Extends m m') :
    f.Belongs home owner m' := by
  obtain ⟨V, g, outer, routine, r, hknown, hseat, hroutine, hstands⟩ := h
  exact ⟨V, g, outer, routine, r, fun v hv => (hknown v hv).mono hextends.distances,
    hseat.grow hextends.grows, hroutine, hstands.grow hextends.grows⟩

theorem Moment.Belongs.leads {x y : Moment} (h : x.Belongs home owner) (hok : x.Ok V)
    (hleads : Leads rules x y) (hcode : y.task.IsCode) : y.Belongs home owner := by
  obtain ⟨V', g, outer, hknown, hseat, hinside⟩ := h
  have hled := hok.led hleads
  refine ⟨V', g, outer, ?_, hseat.grow hled.grows, hinside.leads hled hleads hcode⟩
  rw [hled.distances]
  exact hknown

/-- The body of such a function is part of the method. -/
theorem Function.Belongs.body {x y : Moment} {arguments : List Value} {line : Nat}
    (h : f.Belongs home owner x.machine) (hok : x.Ok V)
    (hcall : x.task = .callFunction f arguments line) (hleads : Leads rules x y) :
    y.Belongs home owner := by
  have hled := hok.led hleads
  obtain ⟨V', g, outer, routine, r, hknown, hseat, hroutine, hstands⟩ := h.extend hled.extends
  cases hleads with
  | body hbind =>
    cases hcall
    exact ⟨V', g, outer, hknown, hseat, _, hroutine.stands hstands (hled.opened rfl),
      hroutine.body⟩
  | _ => cases hcall

/-- A function that is declared inside a method is within it. -/
theorem Moment.Belongs.declared {fuel : Nat} {d : FunctionDecl} {m₁ : Machine}
    (h : Moment.Belongs home owner ⟨fuel, .execute (.function d), m⟩)
    (hf : newFunction d m.current false m = .ok f m₁) : f.Belongs home owner m := by
  obtain ⟨V, g, outer, hknown, hseat, r, hstands, hs⟩ := h
  cases hf
  refine ⟨V, g, outer, .function, _, hknown, hseat, hs.function.2, ?_⟩
  rw [scopes_define_declare (SameScopes.refl (r.declare d.name))]
  exact hstands.mark hs.ready hs.function.1 true

/-! ### Binding -/

/-- Binding a method makes a frame that stands for the instance, and a function. -/
theorem Exec.bind_eq (method : Function) (owner : Instance) (m : Machine) :
    Exec.bind method owner m =
      .ok ⟨m.nextIdentity, method.declaration, m.frames.next, method.isInitializer⟩
        { m with
          frames := (m.frames.child method.closure).define m.frames.next "this" (.object owner)
          nextIdentity := m.nextIdentity + 1 } :=
  rfl

/-- The frame that a bound method closes over stands for the instance. -/
theorem Exec.findIn?_this_of_bind {method : Function}
    (hbind : Exec.bind method owner m = .ok f m') :
    m'.frames.findIn? f.closure "this" = some (.object owner) := by
  rw [Exec.bind_eq] at hbind
  cases hbind
  exact Frames.findIn?_define_self (Frames.next_lt_child _ _) _ _

/-- A method that was bound belongs to its class and to the instance. -/
theorem Function.Belongs.of_bind {method : Function} (hm : Sound V m)
    (hmethod : MethodOk V m.frames home.inherited method)
    (hbind : Exec.bind method owner m = .ok f m') : f.Belongs home owner m' := by
  rw [Exec.bind_eq] at hbind
  cases hbind
  obtain ⟨routine, r, outer, hroutine, hscopes, hmirrors, -, hsuper⟩ := hmethod
  have hknown : ∀ v, V v → v.Known m.distances := fun v hv => (hm.recorded v hv).known
  have hlt := hmirrors.lt hm.global
  refine ⟨V, m.frames.next, outer, routine, r, hknown,
    ⟨Frames.findIn?_define_self (Frames.next_lt_child _ _) _ _, ?_⟩, hroutine, ?_⟩
  · rintro rest rfl
    have hstack := hroutine.settled.stack
    rw [hscopes] at hstack
    obtain ⟨parent, hparent, hchain⟩ := hsuper (hstack.derived_iff.mpr ⟨rest, rfl⟩)
    refine ⟨method.closure, parent, ?_, ?_, Class.superclass?_of_chain hchain⟩
    · rw [Frames.enclosing?_define]
      exact Frames.enclosing?_child_next hlt
    · rw [Frames.findIn?_define_of_ne, Frames.findIn?_child]
      · exact hparent
      · rintro ⟨-, hname⟩
        exact absurd hname (by decide)
  · rw [hscopes]
    exact .start _ _ _

/-- A field is read as it is. -/
theorem Exec.getProperty_of_field {name : Token} {value : Value}
    (hfield : (m.fields.getD owner.id .empty).find? name.lexeme = some value) :
    getProperty owner name m = .ok value m := by
  have hget : (MonadState.get : Exec Machine) m = .ok m m := rfl
  unfold getProperty
  rw [bind_of_ok hget, hfield]
  rfl

/-- A property that is no field is a method, bound to the instance. -/
theorem Exec.getProperty_of_method {name : Token} {method : Function}
    (hfield : (m.fields.getD owner.id .empty).find? name.lexeme = none)
    (hmethod : owner.cls.findMethod? name.lexeme = some method) :
    getProperty owner name m = (do return .function (← Exec.bind method owner) : Exec Value) m := by
  have hget : (MonadState.get : Exec Machine) m = .ok m m := rfl
  unfold getProperty
  rw [bind_of_ok hget, hfield]
  simp only [hmethod]

/-- A property that is neither a field nor a method is undefined. -/
theorem Exec.getProperty_of_none {name : Token}
    (hfield : (m.fields.getD owner.id .empty).find? name.lexeme = none)
    (hmethod : owner.cls.findMethod? name.lexeme = none) :
    getProperty owner name m =
      .error (.error ⟨.undefinedProperty name.lexeme, name.line⟩) m := by
  have hget : (MonadState.get : Exec Machine) m = .ok m m := rfl
  unfold getProperty
  rw [bind_of_ok hget, hfield]
  simp only [hmethod]
  rfl

/-- A call passes the checks with the right number of arguments and below the limit. -/
theorem Exec.checkCall_of_arity {callee : Value} {count : Nat} (harity : callee.arity? = some count)
    (hdepth : m.depth < rules.callLimit) (line : Nat) :
    checkCall rules callee count line m = .ok () m := by
  have hget : (MonadState.get : Exec Machine) m = .ok m m := rfl
  simp only [checkCall, harity, ne_eq, not_true_eq_false, if_false]
  refine (bind_of_ok hget).trans ?_
  rw [if_neg (Nat.not_le_of_lt hdepth)]
  rfl

theorem Exec.defineEach_ok (frame : FrameId) (pairs : List (Token × Value)) (m : Machine) :
    ∃ m', defineEach frame pairs m = .ok () m' := by
  induction pairs generalizing m with
  | nil => exact ⟨m, rfl⟩
  | cons pair pairs ih =>
    obtain ⟨m', hrest⟩ := ih { m with frames := m.frames.define frame pair.1.lexeme pair.2 }
    exact ⟨m', (bind_of_ok rfl).trans hrest⟩

/-- Parameters can always be bound. -/
theorem Exec.bindArguments_ok (f : Function) (arguments : List Value) (m : Machine) :
    ∃ frame m', bindArguments f arguments m = .ok frame m' := by
  obtain ⟨m', hbound⟩ := defineEach_ok m.frames.next (f.declaration.parameters.zip arguments)
    { m with frames := m.frames.child f.closure }
  exact ⟨m.frames.next, m', (bind_of_ok rfl).trans (bind_of_ok hbound)⟩

/-! ### Class declarations -/

/-- What the methods of a class were made of. -/
def MadeOf (methods : Bindings Function) (declarations : List FunctionDecl) : Prop :=
  ∀ name method, methods.find? name = some method →
    method.declaration ∈ declarations ∧ method.declaration.name.lexeme = name

/-- What is true of the methods there are, and of each one when it is made, is true of all. -/
theorem Exec.forall_addMethods {frame : FrameId} {declarations : List FunctionDecl}
    {start methods : Bindings Function} {P : String → Function → Prop}
    (hP : ∀ d ∈ declarations, ∀ id, m.nextIdentity ≤ id →
      P d.name.lexeme ⟨id, d, frame, d.isInitializer⟩)
    (hstart : ∀ name method, start.find? name = some method → P name method)
    (h : addMethods frame declarations start m = .ok methods m') :
    ∀ name method, methods.find? name = some method → P name method := by
  induction declarations generalizing start m with
  | nil =>
    cases h
    exact hstart
  | cons d rest ih =>
    rw [addMethods_cons_run] at h
    refine ih (fun e he id hid => hP e (List.mem_cons_of_mem d he) id (Nat.le_of_succ_le hid)) ?_ h
    intro name method hmethod
    rw [Bindings.find?_insert] at hmethod
    split at hmethod
    · -- The newest method under a name hides the ones before it.
      cases hmethod
      rw [‹name = _›]
      exact hP d List.mem_cons_self _ (Nat.le_refl _)
    · exact hstart name method hmethod

theorem Exec.forall_makeMethods {frame : FrameId} {declarations : List FunctionDecl}
    {methods : Bindings Function} {P : String → Function → Prop}
    (hP : ∀ d ∈ declarations, ∀ id, m.nextIdentity ≤ id →
      P d.name.lexeme ⟨id, d, frame, d.isInitializer⟩)
    (h : makeMethods frame declarations m = .ok methods m') :
    ∀ name method, methods.find? name = some method → P name method :=
  forall_addMethods hP (fun name method hmethod => by cases hmethod) h

theorem Exec.madeOf_makeMethods {frame : FrameId} {declarations : List FunctionDecl}
    {methods : Bindings Function}
    (h : makeMethods frame declarations m = .ok methods m') : MadeOf methods declarations :=
  forall_makeMethods (fun _ hd _ _ => ⟨hd, rfl⟩) h

/-- The value that a class declaration has for a superclass. -/
theorem Exec.of_superclassOf {superclass : Option Occurrence} {parent : Option Class}
    (h : superclassOf rules superclass m = .ok parent m') :
    (superclass = none → parent = none) ∧
      ∀ place ∈ superclass, ∃ c, parent = some c ∧
        readVariable rules place m = .ok (.class c) m' := by
  cases superclass with
  | none =>
    cases h
    exact ⟨fun _ => rfl, fun place hplace => by cases hplace⟩
  | some place =>
    refine ⟨fun hnone => absurd hnone (Option.some_ne_none place), ?_⟩
    rintro _ ⟨⟩
    change ((readVariable rules place >>= (expectClass · place.line)) >>=
      fun c => Pure.pure (some c)) m = .ok parent m' at h
    obtain ⟨c, m₂, hc, hparent⟩ := of_bind_ok h
    obtain ⟨value, m₁, hvalue, hclass⟩ := of_bind_ok hc
    cases hparent
    cases value with
    | «class» =>
      cases hclass
      exact ⟨c, rfl, hvalue⟩
    | _ => cases hclass

/-- The steps of a class declaration that succeeds. -/
theorem Exec.of_declareClass_ok {name : Token} {superclass : Option Occurrence}
    {methods : List FunctionDecl} (h : declareClass rules name superclass methods m = .ok () m') :
    ∃ m₁ m₂ m₃ m₄ parent frame own id, define name.lexeme .nil m = .ok () m₁ ∧
      superclassOf rules superclass m₁ = .ok parent m₂ ∧ methodFrame parent m₂ = .ok frame m₃ ∧
      makeMethods frame methods m₃ = .ok own m₄ ∧
      define name.lexeme (.class ⟨⟨id, name.lexeme, own⟩, (parent.map Class.chain).getD []⟩)
        { m₄ with nextIdentity := m₄.nextIdentity + 1 } = .ok () m' := by
  rw [declareClass_eq] at h
  obtain ⟨⟨⟩, m₁, hdefine, h⟩ := of_bind_ok h
  obtain ⟨parent, m₂, hparent, h⟩ := of_bind_ok h
  unfold finishClass at h
  obtain ⟨frame, m₃, hframe, h⟩ := of_bind_ok h
  obtain ⟨own, m₄, hown, h⟩ := of_bind_ok h
  obtain ⟨id, m₅, hid, h⟩ := of_bind_ok h
  cases hid
  exact ⟨m₁, m₂, m₃, m₄, parent, frame, own, _, hdefine, hparent, hframe, hown, h⟩

/-- A class declaration binds a class with the methods declared and the superclass read. -/
theorem Exec.of_declareClass {name : Token} {superclass : Option Occurrence}
    {methods : List FunctionDecl} (hlt : m'.current < m'.frames.size)
    (h : declareClass rules name superclass methods m = .ok () m') :
    ∃ c m₁ m₂ parent, define name.lexeme .nil m = .ok () m₁ ∧
      superclassOf rules superclass m₁ = .ok parent m₂ ∧
      m'.frames.findIn? m'.current name.lexeme = some (.class c) ∧
      c.name = name.lexeme ∧ c.superclass? = parent ∧ MadeOf c.layer.methods methods := by
  obtain ⟨m₁, m₂, m₃, m₄, parent, frame, own, identity, hdefine, hparent, -, hown, h⟩ :=
    of_declareClass_ok h
  cases h
  refine ⟨⟨⟨identity, name.lexeme, own⟩, (parent.map Class.chain).getD []⟩, m₁, m₂, parent,
    hdefine, hparent, ?_, rfl, ?_, madeOf_makeMethods hown⟩
  · rw [Frames.size_define] at hlt
    exact Frames.findIn?_define_self hlt _ _
  · cases parent with
    | none => rfl
    | some c => exact Class.superclass?_of_chain rfl

end Lox
