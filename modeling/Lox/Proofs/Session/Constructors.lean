import Lox.Proofs.Execution.Calls
import Lox.Proofs.Execution.Parameters
import Lox.Proofs.Session.Recorded

/-!
# Constructors and initializers

The call of a class makes an instance that is not one of those that were there before.
Where a class of the chain declares an initializer, the nearest one is run on the new
instance, once and with all the arguments, and otherwise nothing is run.  However the
body of an initializer ends, what its call returns is the instance that it is bound to.
-/

namespace Lox

open Resolution Exec

/-- Whatever the task yields is the instance. -/
def Moment.Delivers (rules : Rules) (x : Moment) (owner : Instance) : Prop :=
  ∀ value ∈ x.yielded rules, value = .object owner

/-- The function is an initializer that is bound to the instance. -/
def Function.Initializes (f : Function) (owner : Instance) (m : Machine) : Prop :=
  f.isInitializer = true ∧ m.frames.findIn? f.closure "this" = some (.object owner)

/--
The call of a class, with these events in front: the instance is one of the class, it is
none of those in front, and the only thing that is run is the nearest initializer.
-/
structure Constructs (front : List Event) (rules : Rules) (y : Moment) (c : Class)
    (arguments : List Value) (line : Nat) (owner : Instance) : Prop where
  called : y.task = .call (.class c) arguments line
  cls : owner.cls = c
  fresh : ∀ s ∈ front, ∀ other, s.Shows (.object other) → other.id ≠ owner.id
  runs : ∃ m, newInstance c y.machine = .ok owner m ∧
    match c.declarer? initializerName with
    | some home => ∃ method f m', home.layer.methods.find? initializerName = some method ∧
      Exec.bind method owner m = .ok f m' ∧ f.Initializes owner m' ∧
      y.parts rules = [⟨y.fuel - 1, .callFunction f arguments line, m'⟩]
    | none => y.parts rules = [] ∧ y.yielded rules = [.object owner]

/-- What calls of classes and of initializers do throughout a history. -/
structure ConstructorsDeliver (events : List Event) : Prop where
  /--
  With the right number of arguments, a class is called unless too many calls are under
  way, and what the call yields is a new instance.
  -/
  constructs : ∀ before rules x behind c values paren m,
    events = before ++ .ends rules x :: behind → Attempts rules x (.class c) values paren m →
    values.length = c.arity →
    if rules.callLimit ≤ m.depth then x.Raises rules ⟨.stackOverflow, paren.line⟩
    else ∃ front y owner, before = front ++ y.trace rules ∧
      Constructs front rules y c values paren.line owner ∧ x.Delivers rules owner
  /-- A function is only ever entered with as many arguments as it has parameters. -/
  counts : ∀ rules fuel f arguments line m,
    .begins rules ⟨fuel, .callFunction f arguments line, m⟩ ∈ events → f.arity = arguments.length
  /-- Its parameters are bound to the arguments in order, and then its body is run. -/
  enters : ∀ rules fuel f arguments line m,
    .begins rules ⟨fuel + 1, .callFunction f arguments line, m⟩ ∈ events →
    Moment.Enters rules ⟨fuel + 1, .callFunction f arguments line, m⟩ f arguments
  /-- An initializer that is read off an instance is bound to it. -/
  reads : ∀ rules fuel object name m owner m₁ value m₂,
    .ends rules ⟨fuel + 1, .evaluate (.get object name), m⟩ ∈ events →
    name.lexeme = initializerName →
    Exec.evaluate rules fuel object m = .ok (.object owner) m₁ →
    m₁.field? owner.id initializerName = none →
    Exec.evaluate rules (fuel + 1) (.get object name) m = .ok value m₂ →
    ∃ f, value = .function f ∧ f.Initializes owner m₂
  /-- One that `super` provides is bound to the instance at hand. -/
  inherits : ∀ rules fuel place name m value m',
    .ends rules ⟨fuel + 1, .evaluate (.super place name), m⟩ ∈ events →
    name.lexeme = initializerName →
    Exec.evaluate rules (fuel + 1) (.super place name) m = .ok value m' →
    ∃ f owner distance, value = .function f ∧ f.Initializes owner m' ∧
      m.distances[place.id]? = some distance ∧
      m.frames.getAt m.current (distance - 1) "this" place.line = .ok (.object owner)
  /-- Whenever a call of a bound initializer ends, it yields the instance, if anything. -/
  returns : ∀ before s behind f owner, events = before ++ s :: behind →
    f.Initializes owner s.machine → ∀ rules x values paren m, .ends rules x ∈ behind →
    Attempts rules x (.function f) values paren m → x.Delivers rules owner

variable {sink : Sink} {units : List Program} {events before behind : List Event}
  {session : Session} {rules : Rules} {x : Moment} {m m' : Machine} {f : Function}
  {owner : Instance} {value : Value} {values : List Value} {paren : Token} {c : Class}

/-! ### Calls that are attempted -/

theorem Exec.mem_yieldOf {α : Type} {yields : α → List Value}
    {result : EStateM.Result Interrupt Machine α} :
    value ∈ yieldOf yields result ↔ ∃ a m, result = .ok a m ∧ value ∈ yields a := by
  constructor
  · intro h
    cases result with
    | ok a m => exact ⟨a, m, rfl, h⟩
    | error e m => cases h
  · rintro ⟨a, m, rfl, h⟩
    exact h

/-- A call that succeeds leaves the frames as what is called has left them. -/
theorem Exec.of_asCall_ok {α : Type} {p : Exec α} {a : α} (h : asCall p m = .ok a m') :
    ∃ m'', p { m with depth := m.depth + 1 } = .ok a m'' ∧ m'.frames = m''.frames := by
  unfold asCall at h
  split at h
  · rename_i a' m'' hp
    cases h
    exact ⟨m'', hp, rfl⟩
  · cases h

/-- What is left of a call that is attempted: the checks, and what is called. -/
theorem Attempts.evaluate_eq {fuel : Nat} {e : Expr} {m₀ : Machine}
    (h : Attempts rules ⟨fuel + 1, .evaluate e, m₀⟩ value values paren m) :
    Exec.evaluate rules (fuel + 1) e m₀ =
      (checkCall rules value values.length paren.line >>= fun _ =>
        asCall (Exec.call rules fuel value values paren.line)) m := by
  cases h with
  | mk hcallee harguments =>
    simp only [Exec.evaluate]
    rw [bind_of_ok hcallee, bind_of_ok harguments]

/-- What a call yields that passes the checks, with the frames that are left behind. -/
theorem Attempts.of_mem_yielded (h : Attempts rules x value values paren m) {result : Value}
    (hresult : result ∈ x.yielded rules) :
    ∃ fuel m', x.fuel = fuel + 1 ∧
      Exec.call rules fuel value values paren.line { m with depth := m.depth + 1 } =
        .ok result m' ∧ (x.final rules).frames = m'.frames := by
  obtain ⟨fuel, task, m₀⟩ := x
  cases task with
  | evaluate e =>
    cases fuel with
    | zero => cases h
    | succ fuel =>
      obtain ⟨value', m₁, hrun, hsame⟩ := mem_yieldOf.mp hresult
      cases List.mem_singleton.mp hsame
      have hrun' := h.evaluate_eq.symm.trans hrun
      obtain ⟨⟨⟩, m₂, hcheck, hcall⟩ := of_bind_ok hrun'
      obtain ⟨rfl, -⟩ := of_checkCall_ok hcheck
      obtain ⟨m₃, hcall, hframes⟩ := of_asCall_ok hcall
      refine ⟨fuel, m₃, rfl, hcall, ?_⟩
      rw [← hframes]
      change (endOf (Exec.evaluate rules (fuel + 1) e m₀)).frames = m₁.frames
      rw [hrun]
      rfl
  | _ => cases h

/-! ### Initializers -/

/-- An initializer returns what `this` is in the frame that it sees. -/
theorem Exec.getAt_of_callFunction {fuel line : Nat} (hinitializer : f.isInitializer = true)
    (h : Exec.callFunction rules fuel f values line m = .ok value m') :
    m'.frames.getAt f.closure 0 "this" line = .ok value := by
  cases fuel with
  | zero => cases h
  | succ fuel =>
    simp only [Exec.callFunction] at h
    obtain ⟨frame, m₁, -, h⟩ := of_bind_ok h
    obtain ⟨flow, m₂, -, h⟩ := of_bind_ok h
    unfold callResult at h
    rw [if_pos hinitializer] at h
    obtain ⟨m₃, m₄, hget, h⟩ := of_bind_ok h
    cases hget
    cases hthis : m₂.frames.getAt f.closure 0 "this" line with
    | ok this =>
      rw [hthis] at h
      cases h
      exact hthis
    | error e =>
      rw [hthis] at h
      cases h

/-- A bound initializer delivers the instance that it is bound to in the end. -/
theorem Function.Initializes.delivers (hf : f.Initializes owner (x.final rules))
    (h : Attempts rules x (.function f) values paren m) : x.Delivers rules owner := by
  intro result hresult
  obtain ⟨fuel, m', -, hcall, hframes⟩ := h.of_mem_yielded hresult
  have hthis := hf.2
  rw [hframes] at hthis
  cases fuel with
  | zero => cases hcall
  | succ fuel =>
    simp only [Exec.call] at hcall
    have hgot := getAt_of_callFunction hf.1 hcall
    rw [Frames.getAt_of_found rfl hthis] at hgot
    cases hgot
    rfl

/-- What an initializer is bound to stays so. -/
theorem Function.Initializes.extend (hf : f.Initializes owner m) (hextends : Extends m m') :
    f.Initializes owner m' :=
  ⟨hf.1, hextends.grows.special _ _ _ not_isName_this hf.2⟩

/-- Binding an initializer makes it one of the instance. -/
theorem Function.Initializes.of_bind {method : Function} (hmethod : method.isInitializer = true)
    (hbind : Exec.bind method owner m = .ok f m') : f.Initializes owner m' := by
  refine ⟨?_, findIn?_this_of_bind hbind⟩
  rw [Exec.bind_eq] at hbind
  cases hbind
  exact hmethod

/-- The method of a class that has the name of initializers is one. -/
theorem Class.In.isInitializer {g : Census} (h : c.In g) {method : Function}
    (hmethod : c.findMethod? initializerName = some method) : method.isInitializer = true := by
  obtain ⟨-, hname, hinitializer⟩ := h.findMethod? hmethod
  rw [hinitializer, FunctionDecl.isInitializer, hname]
  rfl

/-! ### Constructors -/

/-- What the call of a class yields is the instance that it makes. -/
theorem Exec.of_call_class_ok {fuel line : Nat}
    (h : Exec.call rules fuel (.class c) values line m = .ok value m') :
    value = .object ⟨m.fields.size, c⟩ := by
  cases fuel with
  | zero => cases h
  | succ fuel =>
    simp only [Exec.call] at h
    obtain ⟨owner, m₁, hinstance, h⟩ := of_bind_ok h
    cases hinstance
    cases hmethod : c.initializer? with
    | some method =>
      simp only [hmethod] at h
      obtain ⟨f, m₂, -, h⟩ := of_bind_ok h
      obtain ⟨result, m₃, -, h⟩ := of_bind_ok h
      cases h
      rfl
    | none =>
      simp only [hmethod] at h
      cases h
      rfl

/-- The call of a class that is in the census, behind events that have led to a machine. -/
theorem Chronicle.constructs {g g' : Census} {front : List Event} {fuel line : Nat}
    {o : Outset} (h : Chronicle o g front m) (hc : c.In g') :
    Constructs front rules
      ⟨fuel + 1, .call (.class c) values line, { m with depth := m.depth + 1 }⟩ c values line
      ⟨m.fields.size, c⟩ := by
  refine ⟨rfl, rfl, ?_, _, rfl, ?_⟩
  · intro s hs other hshows hsame
    exact Nat.ne_of_lt (h.instance_id_lt hs hshows) hsame
  · have hmethods := Class.findMethod?_eq c initializerName
    cases hhome : c.declarer? initializerName with
    | some home =>
      obtain ⟨method, hdeclared⟩ := Class.find?_of_declarer? hhome
      rw [hhome, Option.bind_some, hdeclared] at hmethods
      exact ⟨method, _, _, hdeclared, Exec.bind_eq _ _ _,
        .of_bind (hc.isInitializer hmethods) (Exec.bind_eq _ _ _),
        Moment.parts_of_initializer rfl hmethods (Exec.bind_eq _ _ _) values line⟩
    | none =>
      rw [hhome, Option.bind_none] at hmethods
      have hnone : c.initializer? = none := hmethods
      refine ⟨Moment.parts_of_no_initializer hnone values line, ?_⟩
      simp only [Moment.yielded, Exec.call, hnone]
      rfl

/-- The parts of a call that passes the checks. -/
theorem Moment.parts_of_call {fuel : Nat} {callee : Expr} {arguments : List Expr}
    {m₁ m₂ : Machine} (hcallee : Exec.evaluate rules fuel callee m = .ok value m₁)
    (harguments : Exec.evaluateEach rules fuel arguments m₁ = .ok values m₂)
    (hcheck : checkCall rules value values.length paren.line m₂ = .ok () m₂) :
    parts rules ⟨fuel + 1, .evaluate (.call callee paren arguments), m⟩ =
      [⟨fuel, .evaluate callee, m⟩] ++ ⟨fuel, .evaluateEach arguments, m₁⟩ ::
        [⟨fuel, .call value values paren.line, { m₂ with depth := m₂.depth + 1 }⟩] := by
  simp only [parts, partsOfExpr, behind_of_ok hcallee, behind_of_ok harguments,
    behind_of_ok hcheck, List.singleton_append]

/-- A class that is called delivers a new instance, unless too many calls are under way. -/
theorem Recorded.constructs (h : Recorded sink units events session)
    (hevents : events = before ++ .ends rules x :: behind)
    (hattempts : Attempts rules x (.class c) values paren m) (hcount : values.length = c.arity)
    (hlimit : m.depth < rules.callLimit) :
    ∃ front y owner, before = front ++ y.trace rules ∧
      Constructs front rules y c values paren.line owner ∧ x.Delivers rules owner := by
  have harity : (Value.class c).arity? = some values.length := congrArg some hcount.symm
  have hcheck := checkCall_of_arity harity hlimit paren.line
  have hdelivers : x.Delivers rules ⟨m.fields.size, c⟩ := by
    intro result hresult
    obtain ⟨fuel, m', -, hcall, -⟩ := hattempts.of_mem_yielded hresult
    have hresult := of_call_class_ok hcall
    exact hresult
  cases hattempts with
  | @mk fuel m₀ callee paren arguments value m₁ values m hcallee harguments =>
    cases fuel with
    | zero => cases hcallee
    | succ fuel =>
      obtain ⟨front, g, hbefore, -, hchronicle⟩ :=
        h.behind_part hevents (Moment.parts_of_call hcallee harguments hcheck)
      rw [List.flatMap_singleton] at hbefore
      have hfinal : Moment.final rules ⟨fuel + 1, .evaluateEach arguments, m₁⟩ = m := by
        simp only [Moment.final, harguments, endOf]
      rw [hfinal] at hchronicle
      -- The class is a value that the call is given, so it is in the census of the history.
      have hbegins : .begins rules ⟨fuel + 1, .call (.class c) values paren.line,
          { m with depth := m.depth + 1 }⟩ ∈ events := by
        rw [hevents, hbefore, Moment.trace_eq]
        simp
      obtain ⟨g', hg'⟩ := h.chronicle
      have hc : (Value.class c).In g' := hg'.shown _ hbegins _ (.handled List.mem_cons_self)
      exact ⟨front, _, _, hbefore, hchronicle.constructs hc, hdelivers⟩

/-! ### Bound initializers -/

/-- An initializer that is read off an instance is bound to it. -/
theorem Recorded.reads_initializer (h : Recorded sink units events session) {fuel : Nat}
    {object : Expr} {name : Token} {m₁ m₂ : Machine}
    (hends : .ends rules ⟨fuel + 1, .evaluate (.get object name), m⟩ ∈ events)
    (hname : name.lexeme = initializerName)
    (hobject : Exec.evaluate rules fuel object m = .ok (.object owner) m₁)
    (hfield : m₁.field? owner.id initializerName = none)
    (hread : Exec.evaluate rules (fuel + 1) (.get object name) m = .ok value m₂) :
    ∃ f, value = .function f ∧ f.Initializes owner m₂ := by
  obtain ⟨before, behind, hevents⟩ := List.append_of_mem hends
  obtain ⟨g, -, howner⟩ := h.read_object hevents hobject
  have hfield' : (m₁.fields.getD owner.id .empty).find? name.lexeme = none := by
    rw [hname]
    exact hfield
  simp only [Exec.evaluate] at hread
  rw [bind_of_ok hobject] at hread
  cases hmethod : owner.cls.findMethod? name.lexeme with
  | none =>
    cases (getProperty_of_none hfield' hmethod).symm.trans hread
  | some method =>
    simp only [getProperty_of_method hfield' hmethod] at hread
    obtain ⟨f, m₃, hbind, hf⟩ := of_bind_ok hread
    cases hf
    rw [hname] at hmethod
    exact ⟨f, rfl, .of_bind (howner.2.isInitializer hmethod) hbind⟩

/-- An initializer that `super` provides is bound to the instance at hand. -/
theorem Recorded.inherits_initializer (h : Recorded sink units events session) {fuel : Nat}
    {place : Occurrence} {name : Token}
    (hends : .ends rules ⟨fuel + 1, .evaluate (.super place name), m⟩ ∈ events)
    (hname : name.lexeme = initializerName)
    (hsuper : Exec.evaluate rules (fuel + 1) (.super place name) m = .ok value m') :
    ∃ f owner distance, value = .function f ∧ f.Initializes owner m' ∧
      m.distances[place.id]? = some distance ∧
      m.frames.getAt m.current (distance - 1) "this" place.line = .ok (.object owner) := by
  -- The events up to the end of the evaluation give the census that the classes are in.
  obtain ⟨before, behind, hevents⟩ := List.append_of_mem (h.begins_of_ends hends)
  obtain ⟨g, hg⟩ := h.chronicle
  obtain ⟨g', -, hchronicle⟩ := hg.upTo hevents
  have hm : m.In g' := hchronicle.In
  have hget : (MonadState.get : Exec Machine) m = .ok m m := rfl
  -- The evaluation is opened: the distance, the superclass and the instance are found, or it fails.
  simp only [Exec.evaluate, getSuper] at hsuper
  rw [bind_of_ok hget] at hsuper
  cases hdistance : m.distances[place.id]? with
  | none =>
    rw [hdistance] at hsuper
    cases hsuper
  | some distance =>
    rw [hdistance] at hsuper
    obtain ⟨parent, m₁, hreadSuper, hbehind⟩ := of_bind_ok hsuper
    obtain ⟨hparent, rfl⟩ := of_lift_ok hreadSuper
    obtain ⟨this, m₂, hreadThis, hprovided⟩ := of_bind_ok hbehind
    obtain ⟨hthis, rfl⟩ := of_lift_ok hreadThis
    split at hprovided
    · -- A method of the superclass under the name of initializers is an initializer.
      rename_i parent owner
      cases hmethod : parent.findMethod? name.lexeme with
      | none =>
        simp only [hmethod] at hprovided
        cases hprovided
      | some method =>
        simp only [hmethod] at hprovided
        obtain ⟨f, m₃, hbind, hf⟩ := of_bind_ok hprovided
        cases hf
        rw [hname] at hmethod
        have hclass : (Value.class parent).In g' := hm.getAt hparent
        exact ⟨f, owner, distance, rfl, .of_bind (Class.In.isInitializer hclass hmethod) hbind,
          rfl, hthis⟩
    · cases hprovided

/-! ### Throughout a history -/

/-- In every history constructors and initializers deliver the right instance. -/
theorem Recorded.constructors_deliver (h : Recorded sink units events session) :
    ConstructorsDeliver events := by
  constructor
  · intro before rules x behind c values paren m hevents hattempts hcount
    split
    · have harity : (Value.class c).arity? = some values.length := congrArg some hcount.symm
      exact Moment.raises_overflow_iff.mpr ⟨_, _, _, _, hattempts, harity, ‹_›, rfl⟩
    · exact h.constructs hevents hattempts hcount (Nat.lt_of_not_le ‹_›)
  · intro rules fuel f arguments line m hbegins
    obtain ⟨V, hok⟩ := (h.happens hbegins).ok
    exact hok.task.2.2
  · intro rules fuel f arguments line m hbegins
    obtain ⟨V, hok⟩ := (h.happens hbegins).ok
    exact hok.enters
  · intro rules fuel object name m owner m₁ value m₂ hends hname hobject hfield hread
    exact h.reads_initializer hends hname hobject hfield hread
  · intro rules fuel place name m value m' hends hname hsuper
    exact h.inherits_initializer hends hname hsuper
  · intro before s behind f owner hevents hf rules x values paren m hends hattempts
    have hpairwise := h.along.pairwise
    rw [hevents] at hpairwise
    have hbehind := (List.pairwise_append.mp hpairwise).2.1
    exact (hf.extend (List.rel_of_pairwise_cons hbehind hends)).delivers hattempts

/-- An initializer that is inherited, and that is called once more by itself. -/
def inheritedInitializer : String :=
  "class A \x7b init(a) \x7b this.a = a; return; \x7d \x7d class B < A \x7b \x7d B(nil).init(true);"

/-- The event is the end of a call of a class that has yielded an instance. -/
def Event.makesInstance : Event → Bool
  | .ends rules ⟨fuel, .call (.class c) arguments line, m⟩ =>
    match Moment.yielded rules ⟨fuel, .call (.class c) arguments line, m⟩ with
    | [.object owner] => owner.cls.id == c.id
    | _ => false
  | _ => false

theorem inheritedInitializer_delivers :
    ∃ program n, Program.compile inheritedInitializer 0 = (.ok program, n) ∧
      let events := ((Session.initial .unlimited).start 13 program).trace
        ⟨1024, .byDistance, fun _ => 0⟩
      ConstructorsDeliver events ∧ events.any Event.makesInstance = true := by
  have hruns : (Program.compile inheritedInitializer 0).1.toOption.any (fun program =>
      (((Session.initial .unlimited).start 13 program).trace
        ⟨1024, .byDistance, fun _ => 0⟩).any Event.makesInstance) = true := by decide +kernel
  obtain ⟨program, n, hcompile, hmakes⟩ := Program.exists_of_any hruns
  have hrecorded := Recorded.first .unlimited hcompile ⟨1024, .byDistance, fun _ => 0⟩ 13
  exact ⟨program, n, hcompile, hrecorded.constructors_deliver, hmakes⟩

end Lox
