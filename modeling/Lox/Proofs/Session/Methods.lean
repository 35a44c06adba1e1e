import Lox.Proofs.Execution.Methods
import Lox.Proofs.Session.History

/-!
# What `this` and `super` are bound to

A method that is read off an instance, or provided by `super` inside of a method, is a
function of its own that is bound to the instance for good.  Wherever this function goes
and whenever it is called, in a later run of the session as well, `this` is the instance
throughout its body and the functions within it, and `super` starts from the superclass
that the class declaring the method had when it was declared.
-/

namespace Lox

open Exec

/--
The function is a method that the class `home` declares, and was bound to the instance
just now: it was read off the instance, or is the initializer of a new one.
-/
inductive Obtained (sink : Sink) (home : Class) (owner : Instance) (f : Function) (m : Machine) :
    Prop where
  | read {rules : Rules} {fuel : Nat} {object : Expr} {name : Token} {m₀ m₁ : Machine} :
      Happens sink rules ⟨fuel + 1, .evaluate (.get object name), m₀⟩ →
      Exec.evaluate rules fuel object m₀ = .ok (.object owner) m₁ →
      (m₁.fields.getD owner.id .empty).find? name.lexeme = none →
      owner.cls.declarer? name.lexeme = some home →
      Exec.evaluate rules (fuel + 1) (.get object name) m₀ = .ok (.function f) m →
      Obtained sink home owner f m
  | initializer {rules : Rules} {fuel : Nat} {c : Class} {arguments : List Value} {line : Nat}
      {method : Function} {m₀ m₁ : Machine} :
      Happens sink rules ⟨fuel + 1, .call (.class c) arguments line, m₀⟩ →
      newInstance c m₀ = .ok owner m₁ → c.declarer? initializerName = some home →
      home.layer.methods.find? initializerName = some method →
      Exec.bind method owner m₁ = .ok f m → Obtained sink home owner f m

/-- The body of the function runs, in a machine later than `m`. -/
def RunsLater (sink : Sink) (f : Function) (m : Machine) (rules : Rules) (y : Moment) : Prop :=
  ∃ x arguments line, Later sink m x.machine ∧ Happens sink rules x ∧
    x.task = .callFunction f arguments line ∧ Leads rules x y

/--
The moment is inside of a method that the class `home` declares and that is bound to the
instance: in its body, at any depth of blocks, or in the body of a function that is
declared there.  The methods of a class that is declared there are not inside.
-/
inductive Within (sink : Sink) : Class → Instance → Rules → Moment → Prop where
  | method {home : Class} {owner : Instance} {f : Function} {m : Machine} {rules : Rules}
      {y : Moment} : Obtained sink home owner f m → RunsLater sink f m rules y →
      Within sink home owner rules y
  | inherited {home parent home' : Class} {owner : Instance} {f : Function} {m : Machine}
      {rules rules' : Rules} {fuel : Nat} {place : Occurrence} {name : Token} {m₀ : Machine}
      {y : Moment} :
      Within sink home owner rules ⟨fuel + 1, .evaluate (.super place name), m₀⟩ →
      Exec.evaluate rules (fuel + 1) (.super place name) m₀ = .ok (.function f) m →
      home.superclass? = some parent → parent.declarer? name.lexeme = some home' →
      RunsLater sink f m rules' y → Within sink home' owner rules' y
  | closure {home : Class} {owner : Instance} {f : Function} {rules rules' : Rules} {fuel : Nat}
      {d : FunctionDecl} {m₀ m₁ : Machine} {y : Moment} :
      Within sink home owner rules ⟨fuel + 1, .execute (.function d), m₀⟩ →
      newFunction d m₀.current false m₀ = .ok f m₁ →
      RunsLater sink f (Moment.final rules ⟨fuel + 1, .execute (.function d), m₀⟩) rules' y →
      Within sink home owner rules' y
  | part {home : Class} {owner : Instance} {rules : Rules} {x y : Moment} :
      Within sink home owner rules x → Leads rules x y → y.task.IsCode →
      Within sink home owner rules y

variable {sink : Sink} {rules : Rules} {home : Class} {owner : Instance} {f : Function}
  {m : Machine} {x y : Moment}

/-! ### Bound methods belong to their class -/

theorem Obtained.belongs (h : Obtained sink home owner f m) : f.Belongs home owner m := by
  cases h with
  | @read rules fuel object name m₀ m₁ hx hobject hfield hhome hread =>
    obtain ⟨V, hm, scopes, hhere, he⟩ := hx.ok
    obtain ⟨hafter, hclass⟩ := hm.evaluated hhere he.get hobject
    have hclass' : ClassOk V m₁.frames owner.cls := hclass
    have hmethod := Class.findMethod?_eq owner.cls name.lexeme
    rw [hhome, Option.bind_some] at hmethod
    simp only [Exec.evaluate] at hread
    rw [bind_of_ok hobject] at hread
    cases hfound : home.layer.methods.find? name.lexeme with
    | none =>
      have hget : (MonadState.get : Exec Machine) m₁ = .ok m₁ m₁ := rfl
      simp only [getProperty] at hread
      rw [bind_of_ok hget, hfield] at hread
      simp only [hmethod, hfound] at hread
      cases hread
    | some method =>
      simp only [getProperty_of_method hfield (hmethod.trans hfound)] at hread
      obtain ⟨f', m₂, hbind, hf⟩ := of_bind_ok hread
      cases hf
      exact .of_bind hafter.sound (hclass'.declarer? hhome hfound) hbind
  | @initializer rules fuel c arguments line method m₀ m₁ hx hinstance hhome hmethod hbind =>
    obtain ⟨V, hm, hclass, -, -⟩ := hx.ok
    have hclass' : ClassOk V m₀.frames c := hclass
    obtain ⟨hafter, -, -⟩ := Keeps.of_ok (Keeps.newInstance hm c) hinstance
    exact .of_bind hafter.sound ((hclass'.grow hafter.grows).declarer? hhome hmethod) hbind

theorem RunsLater.happens (h : RunsLater sink f m rules y) : Happens sink rules y := by
  obtain ⟨x, arguments, line, -, hx, -, hleads⟩ := h
  exact hx.leads hleads

/-- However a function was stored, its body still belongs where the function did. -/
theorem RunsLater.belongs (h : RunsLater sink f m rules y) (hf : f.Belongs home owner m) :
    y.Belongs home owner := by
  obtain ⟨x, arguments, line, hlater, hx, hcall, hleads⟩ := h
  obtain ⟨V, hok⟩ := hx.ok
  exact (hf.extend hlater.extends).body hok hcall hleads

/-- Inside of a method, `super` refers to the superclass of the class that declares it. -/
theorem Moment.Belongs.super {fuel : Nat} {place : Occurrence} {name : Token}
    (h : Moment.Belongs home owner ⟨fuel + 1, .evaluate (.super place name), m⟩)
    {V : Visit → Prop} (hm : Sound V m) (rules : Rules) :
    ∃ parent, home.superclass? = some parent ∧ ClassOk V m.frames parent ∧
      Exec.evaluate rules (fuel + 1) (.super place name) m =
        match parent.findMethod? name.lexeme with
        | some found => (do return Value.function (← Exec.bind found owner) : Exec Value) m
        | none => .error (.error ⟨.undefinedProperty name.lexeme, name.line⟩) m := by
  obtain ⟨V', g, outer, hknown, hseat, hinside⟩ := h
  obtain ⟨rest, hrest, hsuper⟩ := evaluate_super hinside hknown hseat.this
  obtain ⟨around, parent, haround, hparent, hhome⟩ := hseat.super rest hrest
  exact ⟨parent, hhome, hm.bound around "super" _ hparent, hsuper around parent haround hparent⟩

/-- The method that `super` provides belongs to the class that declares it. -/
theorem Moment.Belongs.inherited {fuel : Nat} {place : Occurrence} {name : Token}
    {parent home' : Class} {m' : Machine} {V : Visit → Prop}
    (h : Moment.Belongs home owner ⟨fuel + 1, .evaluate (.super place name), m⟩)
    (hm : Sound V m)
    (hsuper : Exec.evaluate rules (fuel + 1) (.super place name) m = .ok (.function f) m')
    (hparent : home.superclass? = some parent)
    (hhome' : parent.declarer? name.lexeme = some home') : f.Belongs home' owner m' := by
  obtain ⟨parent', hparent', hclass, hevaluate⟩ := h.super hm rules
  rw [hparent, Option.some.injEq] at hparent'
  subst hparent'
  rw [hsuper, Class.findMethod?_eq, hhome', Option.bind_some] at hevaluate
  cases hfound : home'.layer.methods.find? name.lexeme with
  | none =>
    simp only [hfound] at hevaluate
    cases hevaluate
  | some method =>
    simp only [hfound] at hevaluate
    obtain ⟨f', m₂, hbind, hf⟩ := of_bind_ok hevaluate.symm
    cases hf
    exact .of_bind hm (hclass.declarer? hhome' hfound) hbind

theorem Within.belongs (h : Within sink home owner rules y) :
    Happens sink rules y ∧ y.Belongs home owner := by
  induction h with
  | method hobtained hruns => exact ⟨hruns.happens, hruns.belongs hobtained.belongs⟩
  | inherited _ hsuper hparent hhome' hruns ih =>
    obtain ⟨V, hok⟩ := ih.1.ok
    exact ⟨hruns.happens, hruns.belongs (ih.2.inherited hok.sound hsuper hparent hhome')⟩
  | closure _ hf hruns ih =>
    obtain ⟨V, hok⟩ := ih.1.ok
    exact ⟨hruns.happens, hruns.belongs ((ih.2.declared hf).extend hok.extends_final)⟩
  | part _ hleads hcode ih =>
    obtain ⟨V, hok⟩ := ih.1.ok
    exact ⟨ih.1.leads hleads, ih.2.leads hok hleads hcode⟩

/-! ### Methods in a run -/

/-- Reading a method that no field hides yields it, bound to the instance. -/
theorem Happens.obtains {fuel : Nat} {object : Expr} {name : Token} {m₁ : Machine}
    {method : Function} (h : Happens sink rules ⟨fuel + 1, .evaluate (.get object name), m⟩)
    (hobject : Exec.evaluate rules fuel object m = .ok (.object owner) m₁)
    (hfield : (m₁.fields.getD owner.id .empty).find? name.lexeme = none)
    (hmethod : owner.cls.findMethod? name.lexeme = some method) :
    ∃ home f m₂, owner.cls.declarer? name.lexeme = some home ∧
      home.layer.methods.find? name.lexeme = some method ∧
      Exec.bind method owner m₁ = .ok f m₂ ∧
      Exec.evaluate rules (fuel + 1) (.get object name) m = .ok (.function f) m₂ ∧
      Obtained sink home owner f m₂ := by
  obtain ⟨home, hhome, hfound⟩ := Class.declarer?_of_findMethod? hmethod
  have hbind := Exec.bind_eq method owner m₁
  have hread : Exec.evaluate rules (fuel + 1) (.get object name) m =
      (do return .function (← Exec.bind method owner) : Exec Value) m₁ := by
    simp only [Exec.evaluate]
    rw [bind_of_ok hobject]
    exact getProperty_of_method hfield hmethod
  rw [bind_of_ok hbind] at hread
  exact ⟨home, _, _, hhome, hfound, hbind, hread, .read h hobject hfield hhome hread⟩

/-- A method that is called where it is read runs inside of itself. -/
theorem Obtained.within_call {fuel : Nat} {object : Expr} {name paren : Token}
    {arguments : List Expr} {values : List Value} {m₀ m₂ : Machine}
    (hobtained : Obtained sink home owner f m)
    (h : Happens sink rules ⟨fuel + 3, .evaluate (.call (.get object name) paren arguments), m₀⟩)
    (hread : Exec.evaluate rules (fuel + 2) (.get object name) m₀ = .ok (.function f) m)
    (harguments : Exec.evaluateEach rules (fuel + 2) arguments m = .ok values m₂)
    (harity : f.arity = values.length) (hdepth : m₂.depth < rules.callLimit) :
    ∃ m', Within sink home owner rules ⟨fuel, .executeEach f.declaration.body, m'⟩ ∧
      ∀ start, Passes rules start
          ⟨fuel + 3, .evaluate (.call (.get object name) paren arguments), m₀⟩ →
        Passes rules start ⟨fuel, .executeEach f.declaration.body, m'⟩ := by
  have hcallable : (Value.function f).arity? = some values.length := congrArg some harity
  have hcheck := checkCall_of_arity hcallable hdepth paren.line
  have hleads := Leads.call hread harguments hcheck
  have hcall := h.leads hleads
  have hvalues : Later sink m m₂ := by
    have hends := Later.same.ends (h.leads (.arguments hread))
    simp only [Moment.final, harguments] at hends
    exact hends
  have hlater := (hvalues.called h hread harguments hcheck).begins hcall .function
  obtain ⟨frame, m₄, hbind⟩ := bindArguments_ok f values { m₂ with depth := m₂.depth + 1 }
  refine ⟨{ m₄ with current := frame }, ?_, ?_⟩
  · exact .method hobtained
      ⟨_, values, paren.line, hlater, hcall.leads .function, rfl, .body hbind⟩
  · intro start hpasses
    exact ((hpasses.step hleads).step .function).step (.body hbind)

/-- What methods of a run are bound to. -/
structure MethodsBound (sink : Sink) (rules : Rules) (start : Moment) : Prop where
  /-- A method read off an instance is a new function that is bound to it. -/
  reads : ∀ fuel object name m owner m₁ method,
    Passes rules start ⟨fuel + 1, .evaluate (.get object name), m⟩ →
    Exec.evaluate rules fuel object m = .ok (.object owner) m₁ →
    (m₁.fields.getD owner.id .empty).find? name.lexeme = none →
    owner.cls.findMethod? name.lexeme = some method →
    ∃ home f m₂, owner.cls.declarer? name.lexeme = some home ∧
      home.layer.methods.find? name.lexeme = some method ∧
      Exec.bind method owner m₁ = .ok f m₂ ∧
      Exec.evaluate rules (fuel + 1) (.get object name) m = .ok (.function f) m₂ ∧
      Obtained sink home owner f m₂
  /-- Inside of a method, `this` is the instance that the method was bound to. -/
  this : ∀ home owner fuel place m,
    Passes rules start ⟨fuel + 1, .evaluate (.this place), m⟩ →
    Within sink home owner rules ⟨fuel + 1, .evaluate (.this place), m⟩ →
    Exec.evaluate rules (fuel + 1) (.this place) m = .ok (.object owner) m
  /--
  And `super` provides the nearest method from the superclass of the declaring class on,
  bound to the same instance.
  -/
  super : ∀ home owner fuel place name m,
    Passes rules start ⟨fuel + 1, .evaluate (.super place name), m⟩ →
    Within sink home owner rules ⟨fuel + 1, .evaluate (.super place name), m⟩ →
    ∃ parent, home.superclass? = some parent ∧
      match parent.findMethod? name.lexeme with
      | some method => ∃ f m₁, Exec.bind method owner m = .ok f m₁ ∧
        Exec.evaluate rules (fuel + 1) (.super place name) m = .ok (.function f) m₁
      | none => ∃ cause : RuntimeCause,
        cause.message = "Undefined property '" ++ name.lexeme ++ "'." ∧
        Exec.evaluate rules (fuel + 1) (.super place name) m = .error (.error ⟨cause, name.line⟩) m
  /-- The superclass of a class is the one that was read when the class was declared. -/
  declared : ∀ fuel name superclass methods m flow m',
    Passes rules start ⟨fuel + 1, .execute (.class name superclass methods), m⟩ →
    Exec.execute rules (fuel + 1) (.class name superclass methods) m = .ok flow m' →
    ∃ c, m'.frames.findIn? m'.current name.lexeme = some (.class c) ∧ c.name = name.lexeme ∧
      MadeOf c.layer.methods methods ∧ (superclass = none → c.superclass? = none) ∧
      ∀ place ∈ superclass, ∃ parent m₁ m₂, define name.lexeme .nil m = .ok () m₁ ∧
        readVariable rules place m₁ = .ok (.class parent) m₂ ∧ c.superclass? = some parent

/-- In every run of a source that compiles, `this` and `super` are bound lexically. -/
theorem Reached.methods_bound {units : List Program} {session : Session}
    (h : Reached sink units session) {source : String} {program : Program} {n : NodeId}
    (hcompile : Program.compile source session.nextId = (.ok program, n)) (rules : Rules)
    (fuel : Nat) : MethodsBound sink rules (session.start fuel program) := by
  constructor
  · -- A property that is no field obtains a method.
    intro k object name m owner m₁ method hpasses hobject hfield hmethod
    exact (Happens.of_passes h hcompile hpasses).obtains hobject hfield hmethod
  · -- `this` inside a method is the instance that it was obtained from.
    intro home owner k place m _ hwithin
    obtain ⟨-, V, g, outer, hknown, hseat, hinside⟩ := hwithin.belongs
    exact evaluate_this hinside hknown hseat.this
  · -- `super` inside a method looks in the superclass of the class that declared it.
    intro home owner k place name m hpasses hwithin
    obtain ⟨V, hok⟩ := (Happens.of_passes h hcompile hpasses).ok
    obtain ⟨parent, hparent, -, hevaluate⟩ := hwithin.belongs.2.super hok.sound rules
    refine ⟨parent, hparent, ?_⟩
    rw [hevaluate]
    cases parent.findMethod? name.lexeme with
    | none => exact ⟨_, rfl, rfl⟩
    | some method =>
      exact ⟨_, _, Exec.bind_eq method owner m, bind_of_ok (Exec.bind_eq method owner m)⟩
  · -- A class declaration binds the class, with the superclass that it found.
    intro k name superclass methods m flow m' hpasses hrun
    obtain ⟨V, hm, r, hhere, hs⟩ := (Happens.of_passes h hcompile hpasses).ok
    obtain ⟨hafter, -⟩ := Keeps.of_ok ((soundAt V rules (k + 1)).execute hm hhere hs) hrun
    simp only [Exec.execute] at hrun
    obtain ⟨⟨⟩, m'', hdeclare, hflow⟩ := of_bind_ok hrun
    cases hflow
    have hlt : m'.current < m'.frames.size :=
      hafter.current ▸ Nat.lt_of_lt_of_le (Mirrors.lt hhere hm.global) hafter.grows.size_le
    obtain ⟨c, m₁, m₂, parent, hdefine, hsuper, hfound, hname, hparent, hmade⟩ :=
      of_declareClass hlt hdeclare
    obtain ⟨hnone, hsome⟩ := of_superclassOf hsuper
    refine ⟨c, hfound, hname, hmade, fun hno => hparent.trans (hnone hno), ?_⟩
    intro place hplace
    obtain ⟨p, rfl, hread⟩ := hsome place hplace
    exact ⟨p, m₁, m₂, hdefine, hread, hparent⟩

/-- A method that returns the instance it runs on, called where it is read. -/
def ownInstance : String := "class A \x7b own() \x7b return this; \x7d \x7d A().own();"

/-- Behind its first statement, the program calls a method that returns `this` on an instance. -/
def callsOwn (program : Program) : Bool :=
  match program.statements with
  | [declaration, .expression (.call (.get object name) _ [])] =>
    match Exec.execute ⟨1024, .byDistance, fun _ => 0⟩ 8 declaration
        ((Machine.initial .unlimited).learn program.distances) with
    | .ok .normal m =>
      match Exec.evaluate ⟨1024, .byDistance, fun _ => 0⟩ 4 object m with
      | .ok (.object owner) m =>
        match owner.cls.findMethod? name.lexeme with
        | some ⟨_, ⟨_, [], [.returning _ (some (.this _))]⟩, _, _⟩ =>
          ((m.fields.getD owner.id .empty).find? name.lexeme).isNone && m.depth == 0
        | _ => false
      | _ => false
    | _ => false
  | _ => false

theorem ownInstance_bound :
    ∃ program n, Program.compile ownInstance 0 = (.ok program, n) ∧
      MethodsBound .unlimited ⟨1024, .byDistance, fun _ => 0⟩
        ((Session.initial .unlimited).start 9 program) ∧
      ∃ home owner place m,
        Passes ⟨1024, .byDistance, fun _ => 0⟩ ((Session.initial .unlimited).start 9 program)
          ⟨1, .evaluate (.this place), m⟩ ∧
        Within .unlimited home owner ⟨1024, .byDistance, fun _ => 0⟩
          ⟨1, .evaluate (.this place), m⟩ := by
  -- The run up to the call is evaluated, by the decision procedure that `callsOwn` states.
  have hruns : (Program.compile ownInstance 0).1.toOption.any callsOwn = true := by decide +kernel
  cases hcompile : Program.compile ownInstance 0 with
  | mk compiled n =>
    rw [hcompile] at hruns
    cases compiled with
    | error errors => cases hruns
    | ok program =>
      have hreached : Reached .unlimited [] (Session.initial .unlimited) := .initial
      refine ⟨program, n, rfl, hreached.methods_bound hcompile ⟨1024, .byDistance, fun _ => 0⟩ 9, ?_⟩
      obtain ⟨statements, distances⟩ := program
      change callsOwn _ = true at hruns
      -- The program declares the class and calls a method of a new instance, found in its class.
      unfold callsOwn at hruns
      split at hruns
      · rename_i declaration object name paren hstatements
        cases hstatements
        split at hruns
        · rename_i m₁ hdeclaration
          split at hruns
          · rename_i owner m₂ hobject
            split at hruns
            · rename_i hmethod
              rw [Bool.and_eq_true, Option.isNone_iff_eq_none, beq_iff_eq] at hruns
              obtain ⟨hfield, hdepth⟩ := hruns
              -- The call happens behind the declaration, as the second statement.
              have hnext : Passes _ _
                  ⟨8, .executeEach [.expression (.call (.get object name) paren [])], m₁⟩ :=
                Passes.start.step (.nextStmts hdeclaration)
              have hcall := (hnext.step .firstStmt).step .expression
              have hhappens := Happens.of_passes hreached hcompile hcall
              -- Its callee obtains the method, so the execution of the body is within it.
              obtain ⟨home, f, m₃, -, -, hbind, hread, hobtained⟩ :=
                (hhappens.leads .callee).obtains hobject hfield hmethod
              cases hbind
              obtain ⟨m', hwithin, hpasses⟩ :=
                hobtained.within_call hhappens hread rfl rfl (hdepth ▸ Nat.zero_lt_succ 1023)
              -- The body is the `return` of `this`.
              have hbody := hpasses _ hcall
              exact ⟨home, owner, _, m', (hbody.step .firstStmt).step .returning,
                (hwithin.part .firstStmt trivial).part .returning trivial⟩
            · cases hruns
          · cases hruns
        · cases hruns
      · cases hruns

end Lox
