import Lox.Proofs.Execution.Evaluation

/-!
# The moments of a run

A run of a program is made of tasks: to evaluate an expression, to execute a
statement, to call a function.  A moment is the beginning of such a task, and leads
to those at which the parts of the task begin, each in the machine that the parts
before it have left behind.  A run passes through all moments that its first one
leads to, whether it ends or not.
-/

namespace Lox

open Resolution Exec

/-- What the evaluator is asked to do. -/
inductive Task where
  | evaluate (e : Expr)
  | evaluateEach (es : List Expr)
  | call (callee : Value) (arguments : List Value) (line : Nat)
  | callFunction (f : Function) (arguments : List Value) (line : Nat)
  | execute (s : Stmt)
  | executeEach (ss : List Stmt)
  | iterate (condition : Expr) (body : Stmt) (increment : Option Expr)

/-- The beginning of a task, with the bound that is left for it. -/
structure Moment where
  fuel : Nat
  task : Task
  machine : Machine

/-- A task leads to its parts, in the order of their execution. -/
inductive Leads (rules : Rules) : Moment → Moment → Prop where
  | group {fuel m inner} : Leads rules ⟨fuel + 1, .evaluate (.group inner), m⟩ ⟨fuel, .evaluate inner, m⟩
  | unary {fuel m operator operand} :
      Leads rules ⟨fuel + 1, .evaluate (.unary operator operand), m⟩ ⟨fuel, .evaluate operand, m⟩
  | binaryLeft {fuel m left operator right} :
      Leads rules ⟨fuel + 1, .evaluate (.binary left operator right), m⟩ ⟨fuel, .evaluate left, m⟩
  | binaryRight {fuel m left operator right value m'} :
      Exec.evaluate rules fuel left m = .ok value m' →
      Leads rules ⟨fuel + 1, .evaluate (.binary left operator right), m⟩
        ⟨fuel, .evaluate right, m'⟩
  | logicalLeft {fuel m left operator right} :
      Leads rules ⟨fuel + 1, .evaluate (.logical left operator right), m⟩ ⟨fuel, .evaluate left, m⟩
  | logicalRight {fuel m left operator right value m'} :
      Exec.evaluate rules fuel left m = .ok value m' → Operator.decides operator value = false →
      Leads rules ⟨fuel + 1, .evaluate (.logical left operator right), m⟩
        ⟨fuel, .evaluate right, m'⟩
  | assign {fuel m place value} :
      Leads rules ⟨fuel + 1, .evaluate (.assign place value), m⟩ ⟨fuel, .evaluate value, m⟩
  | callee {fuel m callee paren arguments} :
      Leads rules ⟨fuel + 1, .evaluate (.call callee paren arguments), m⟩
        ⟨fuel, .evaluate callee, m⟩
  | arguments {fuel m callee paren arguments value m'} :
      Exec.evaluate rules fuel callee m = .ok value m' →
      Leads rules ⟨fuel + 1, .evaluate (.call callee paren arguments), m⟩
        ⟨fuel, .evaluateEach arguments, m'⟩
  | call {fuel m callee paren arguments value m₁ values m₂ m₃} :
      Exec.evaluate rules fuel callee m = .ok value m₁ →
      Exec.evaluateEach rules fuel arguments m₁ = .ok values m₂ →
      checkCall rules value values.length paren.line m₂ = .ok () m₃ →
      Leads rules ⟨fuel + 1, .evaluate (.call callee paren arguments), m⟩
        ⟨fuel, .call value values paren.line, { m₃ with depth := m₃.depth + 1 }⟩
  | get {fuel m object name} :
      Leads rules ⟨fuel + 1, .evaluate (.get object name), m⟩ ⟨fuel, .evaluate object, m⟩
  | setObject {fuel m object name value} :
      Leads rules ⟨fuel + 1, .evaluate (.set object name value), m⟩ ⟨fuel, .evaluate object, m⟩
  | setValue {fuel m object name value owner m'} :
      Exec.evaluate rules fuel object m = .ok (.object owner) m' →
      Leads rules ⟨fuel + 1, .evaluate (.set object name value), m⟩ ⟨fuel, .evaluate value, m'⟩
  | firstExpr {fuel m e rest} :
      Leads rules ⟨fuel + 1, .evaluateEach (e :: rest), m⟩ ⟨fuel, .evaluate e, m⟩
  | nextExprs {fuel m e rest value m'} :
      Exec.evaluate rules fuel e m = .ok value m' →
      Leads rules ⟨fuel + 1, .evaluateEach (e :: rest), m⟩ ⟨fuel, .evaluateEach rest, m'⟩
  | function {fuel m f arguments line} :
      Leads rules ⟨fuel + 1, .call (.function f) arguments line, m⟩
        ⟨fuel, .callFunction f arguments line, m⟩
  | initializer {fuel m c arguments line owner m₁ method f m₂} :
      newInstance c m = .ok owner m₁ → c.initializer? = some method →
      Exec.bind method owner m₁ = .ok f m₂ →
      Leads rules ⟨fuel + 1, .call (.class c) arguments line, m⟩
        ⟨fuel, .callFunction f arguments line, m₂⟩
  | body {fuel m f arguments line frame m'} :
      bindArguments f arguments m = .ok frame m' →
      Leads rules ⟨fuel + 1, .callFunction f arguments line, m⟩
        ⟨fuel, .executeEach f.declaration.body, { m' with current := frame }⟩
  | expression {fuel m value} :
      Leads rules ⟨fuel + 1, .execute (.expression value), m⟩ ⟨fuel, .evaluate value, m⟩
  | var {fuel m name value} :
      Leads rules ⟨fuel + 1, .execute (.var name (some value)), m⟩ ⟨fuel, .evaluate value, m⟩
  | block {fuel m body frame m'} :
      newInnerFrame m = .ok frame m' →
      Leads rules ⟨fuel + 1, .execute (.block body), m⟩
        ⟨fuel, .executeEach body, { m' with current := frame }⟩
  | condition {fuel m condition thenBranch elseBranch} :
      Leads rules ⟨fuel + 1, .execute (.conditional condition thenBranch elseBranch), m⟩
        ⟨fuel, .evaluate condition, m⟩
  | thenBranch {fuel m condition thenBranch elseBranch value m'} :
      Exec.evaluate rules fuel condition m = .ok value m' → value.isTruthy = true →
      Leads rules ⟨fuel + 1, .execute (.conditional condition thenBranch elseBranch), m⟩
        ⟨fuel, .execute thenBranch, m'⟩
  | elseBranch {fuel m condition thenBranch elseBranch value m'} :
      Exec.evaluate rules fuel condition m = .ok value m' → value.isTruthy = false →
      Leads rules ⟨fuel + 1, .execute (.conditional condition thenBranch (some elseBranch)), m⟩
        ⟨fuel, .execute elseBranch, m'⟩
  | loop {fuel m condition body increment} :
      Leads rules ⟨fuel + 1, .execute (.loop condition body increment), m⟩
        ⟨fuel, .iterate condition body increment, m⟩
  | returning {fuel m keyword value} :
      Leads rules ⟨fuel + 1, .execute (.returning keyword (some value)), m⟩
        ⟨fuel, .evaluate value, m⟩
  | firstStmt {fuel m s rest} :
      Leads rules ⟨fuel + 1, .executeEach (s :: rest), m⟩ ⟨fuel, .execute s, m⟩
  | nextStmts {fuel m s rest m'} :
      Exec.execute rules fuel s m = .ok .normal m' →
      Leads rules ⟨fuel + 1, .executeEach (s :: rest), m⟩ ⟨fuel, .executeEach rest, m'⟩
  | test {fuel m condition body increment} :
      Leads rules ⟨fuel + 1, .iterate condition body increment, m⟩ ⟨fuel, .evaluate condition, m⟩
  | turn {fuel m condition body increment value m'} :
      Exec.evaluate rules fuel condition m = .ok value m' → value.isTruthy = true →
      Leads rules ⟨fuel + 1, .iterate condition body increment, m⟩ ⟨fuel, .execute body, m'⟩
  | increment {fuel m condition body step value m₁ flow m₂} :
      Exec.evaluate rules fuel condition m = .ok value m₁ → value.isTruthy = true →
      Exec.execute rules fuel body m₁ = .ok flow m₂ → flow = .normal ∨ flow = .continuing →
      Leads rules ⟨fuel + 1, .iterate condition body (some step), m⟩ ⟨fuel, .evaluate step, m₂⟩
  | again {fuel m condition body value m₁ flow m₂} :
      Exec.evaluate rules fuel condition m = .ok value m₁ → value.isTruthy = true →
      Exec.execute rules fuel body m₁ = .ok flow m₂ → flow = .normal ∨ flow = .continuing →
      Leads rules ⟨fuel + 1, .iterate condition body none, m⟩
        ⟨fuel, .iterate condition body none, m₂⟩
  | againAfter {fuel m condition body step value m₁ flow m₂ result m₃} :
      Exec.evaluate rules fuel condition m = .ok value m₁ → value.isTruthy = true →
      Exec.execute rules fuel body m₁ = .ok flow m₂ → flow = .normal ∨ flow = .continuing →
      Exec.evaluate rules fuel step m₂ = .ok result m₃ →
      Leads rules ⟨fuel + 1, .iterate condition body (some step), m⟩
        ⟨fuel, .iterate condition body (some step), m₃⟩

/-- The moments of a run that starts at one of them. -/
inductive Passes (rules : Rules) (start : Moment) : Moment → Prop where
  | start : Passes rules start start
  | step {x y : Moment} : Passes rules start x → Leads rules x y → Passes rules start y

/--
A name is looked up in a machine.  The place of an assignment is looked up when the
value is there, and a superclass when its class is bound to `nil`.
-/
inductive Looks (rules : Rules) : Moment → OccurrenceKind → Occurrence → Machine → Prop where
  | read {fuel m place} : Looks rules ⟨fuel, .evaluate (.read place), m⟩ .read place m
  | this {fuel m place} : Looks rules ⟨fuel, .evaluate (.this place), m⟩ .this place m
  | super {fuel m place method} :
      Looks rules ⟨fuel, .evaluate (.super place method), m⟩ .super place m
  | assign {fuel m place value} :
      Looks rules ⟨fuel, .evaluate (.assign place value), m⟩ .assign place m
  | assigned {fuel m place value result m'} :
      Exec.evaluate rules fuel value m = .ok result m' →
      Looks rules ⟨fuel + 1, .evaluate (.assign place value), m⟩ .assign place m'
  | superclass {fuel m name place methods m'} :
      define name.lexeme .nil m = .ok () m' →
      Looks rules ⟨fuel, .execute (.class name (some place) methods), m⟩ .read place m'

/-- A function is about to return in a machine. -/
inductive Returns (rules : Rules) : Moment → Function → Machine → Prop where
  | mk {fuel m f arguments line frame m₁ flow m₂} :
      bindArguments f arguments m = .ok frame m₁ →
      inFrame frame (Exec.executeEach rules fuel f.declaration.body) m₁ = .ok flow m₂ →
      Returns rules ⟨fuel + 1, .callFunction f arguments line, m⟩ f m₂

/-! ### Every moment is as it should be -/

variable {V : Visit → Prop} {rules : Rules}

/-- The code of a task stands where its scopes are mirrored. -/
def Task.Ok (V : Visit → Prop) (m : Machine) : Task → Prop
  | .evaluate e => ∃ scopes, Here m scopes ∧ ExprOk V scopes e
  | .evaluateEach es => ∃ scopes, Here m scopes ∧ ExprEachOk V scopes es
  | .call callee arguments _ =>
    ValueOk V m.frames callee ∧ ValuesOk V m.frames arguments ∧
      callee.arity? = some arguments.length
  | .callFunction f arguments _ =>
    FunctionOk V m.frames f ∧ ValuesOk V m.frames arguments ∧ f.arity = arguments.length
  | .execute s => ∃ r, Here m r.scopes ∧ StmtOk V r s
  | .executeEach ss => ∃ r, Here m r.scopes ∧ StmtEachOk V r ss
  | .iterate condition body increment => ∃ r, Here m r.scopes ∧ LoopOk V r condition body increment

/-- A moment at which the machine is sound and the task can begin. -/
structure Moment.Ok (V : Visit → Prop) (x : Moment) : Prop where
  sound : Sound V x.machine
  task : x.task.Ok V x.machine

theorem Keeps.of_ok {α : Type} {m m' : Machine} {x : Exec α} {a : α}
    {post : α → Machine → Prop} (h : Keeps V m post (x m)) (hrun : x m = .ok a m') :
    After V m m' ∧ post a m' := by
  rw [hrun] at h
  exact h

/-- An expression opens no scope and declares nothing: behind it the code at hand is where it was. -/
theorem Here.resolve {m : Machine} {r : Resolution} (h : Here m r.scopes) (e : Expr) :
    Here m (e.resolve r).scopes := by
  rw [(e.sameScopes_resolve r).scopes]
  exact h

/-- Behind an expression that has a value, machine and value are as they should be. -/
theorem Sound.evaluated {fuel : Nat} {m m' : Machine} {scopes : List Scope} {e : Expr}
    {value : Value} (hm : Sound V m) (hhere : Here m scopes) (he : ExprOk V scopes e)
    (hrun : Exec.evaluate rules fuel e m = .ok value m') :
    After V m m' ∧ ValueOk V m'.frames value :=
  Keeps.of_ok ((soundAt V rules fuel).evaluate hm hhere he) hrun

/-- Behind a statement, the machine is as it should be and the scopes are those behind it. -/
theorem Sound.executed {fuel : Nat} {m m' : Machine} {r : Resolution} {s : Stmt} {flow : Flow}
    (hm : Sound V m) (hhere : Here m r.scopes) (hs : StmtOk V r s)
    (hrun : Exec.execute rules fuel s m = .ok flow m') :
    After V m m' ∧ FlowOk V r (s.resolve r) flow m' :=
  Keeps.of_ok ((soundAt V rules fuel).execute hm hhere hs) hrun

/-- Behind the body of a loop the machine is sound, and the code at hand is still the loop. -/
theorem LoopOk.after_turn {fuel : Nat} {m m₁ m₂ : Machine} {r : Resolution} {condition : Expr}
    {body : Stmt} {increment : Option Expr} {value : Value} {flow : Flow}
    (h : LoopOk V r condition body increment) (hm : Sound V m) (hhere : Here m r.scopes)
    (htest : Exec.evaluate rules fuel condition m = .ok value m₁)
    (hbody : Exec.execute rules fuel body m₁ = .ok flow m₂) : After V m m₂ := by
  have hafter₁ := (hm.evaluated hhere h.test htest).1
  have hhere₁ : Here m₁ (condition.resolve r).enterLoop.scopes :=
    (hhere.after hafter₁).resolve condition
  have hafter₂ := (hafter₁.sound.executed hhere₁ h.inner hbody).1
  exact hafter₁.trans hafter₂

/-- The task runs its part in a new frame. -/
def Task.opens : Task → Bool
  | .callFunction _ _ _ | .execute (.block _) => true
  | _ => false

/-- The frame around the one in which the task runs its part. -/
def Moment.home (x : Moment) : FrameId :=
  match x.task with
  | .callFunction f _ _ => f.closure
  | _ => x.machine.current

/-- From a task to one of its parts, frames only grow, and the part can begin. -/
structure Led (V : Visit → Prop) (x y : Moment) : Prop where
  ok : y.Ok V
  grows : Grows x.machine.frames y.machine.frames
  distances : y.machine.distances = x.machine.distances
  stays : x.task.opens = false → y.machine.current = x.machine.current
  opened : x.task.opens = true → y.machine.frames.enclosing? y.machine.current = some x.home

theorem Led.of_after {x y : Moment} (hafter : After V x.machine y.machine)
    (htask : y.task.Ok V y.machine) (hopens : x.task.opens = false) : Led V x y := by
  refine ⟨⟨hafter.sound, htask⟩, hafter.grows, hafter.distances, fun _ => hafter.current, ?_⟩
  intro hopens'
  rw [hopens] at hopens'
  cases hopens'

/-- What a task is made of can begin as well. -/
theorem Moment.Ok.led {x y : Moment} (h : x.Ok V) (hleads : Leads rules x y) : Led V x y := by
  obtain ⟨hm, htask⟩ := h
  -- The parts in front of a part leave a sound machine, and do not move the code at hand.
  cases hleads with
  | group => exact .of_after hm.after htask rfl
  | unary => exact .of_after hm.after htask rfl
  -- The code of a part is sound since that of the whole is, and stands in the same scopes.
  | binaryLeft =>
    obtain ⟨scopes, hhere, he⟩ := htask
    exact .of_after hm.after ⟨scopes, hhere, he.binary.1⟩ rfl
  -- The left operand is in front, and it leaves the frame at hand and its scopes mirrored.
  | @binaryRight fuel m left operator right value m' hleft =>
    obtain ⟨scopes, hhere, he⟩ := htask
    have hafter := (hm.evaluated hhere he.binary.1 hleft).1
    exact .of_after hafter ⟨scopes, hhere.after hafter, he.binary.2⟩ rfl
  | logicalLeft =>
    obtain ⟨scopes, hhere, he⟩ := htask
    exact .of_after hm.after ⟨scopes, hhere, he.logical.1⟩ rfl
  | @logicalRight fuel m left operator right value m' hleft =>
    obtain ⟨scopes, hhere, he⟩ := htask
    have hafter := (hm.evaluated hhere he.logical.1 hleft).1
    exact .of_after hafter ⟨scopes, hhere.after hafter, he.logical.2⟩ rfl
  | assign =>
    obtain ⟨scopes, hhere, he⟩ := htask
    exact .of_after hm.after ⟨scopes, hhere, he.assign.1⟩ rfl
  | callee =>
    obtain ⟨scopes, hhere, he⟩ := htask
    exact .of_after hm.after ⟨scopes, hhere, he.call.1⟩ rfl
  -- The callee is in front of the arguments.
  | @arguments fuel m callee paren arguments value m' hcallee =>
    obtain ⟨scopes, hhere, he⟩ := htask
    have hafter := (hm.evaluated hhere he.call.1 hcallee).1
    exact .of_after hafter ⟨scopes, hhere.after hafter, he.call.2⟩ rfl
  -- In front of a call come the callee, the arguments, and the checks.
  -- The values that they yield are those that the call is given.
  | @call fuel m callee paren arguments value m₁ values m₂ m₃ hcallee harguments hcheck =>
    obtain ⟨scopes, hhere, he⟩ := htask
    obtain ⟨hafter₁, hvalue⟩ := hm.evaluated hhere he.call.1 hcallee
    obtain ⟨hafter₂, hvalues⟩ := Keeps.of_ok
      ((soundAt V rules fuel).evaluateEach hafter₁.sound (hhere.after hafter₁) he.call.2) harguments
    obtain ⟨hafter₃, harity⟩ :=
      Keeps.of_ok (Keeps.checkCall hafter₂.sound value values.length paren.line) hcheck
    have hafter := (hafter₁.trans hafter₂).trans hafter₃
    exact .of_after ⟨hafter.sound.of_eq rfl rfl rfl, hafter.grows, hafter.current, hafter.distances⟩
      ⟨hvalue.grow (hafter₂.grows.trans hafter₃.grows), hvalues.grow hafter₃.grows, harity⟩ rfl
  | get => exact .of_after hm.after htask rfl
  | setObject =>
    obtain ⟨scopes, hhere, he⟩ := htask
    exact .of_after hm.after ⟨scopes, hhere, he.set.1⟩ rfl
  | @setValue fuel m object name value owner m' hobject =>
    obtain ⟨scopes, hhere, he⟩ := htask
    have hafter := (hm.evaluated hhere he.set.1 hobject).1
    exact .of_after hafter ⟨scopes, hhere.after hafter, he.set.2⟩ rfl
  -- Lists are run from the front, so the rest begins behind the first entry.
  | firstExpr =>
    obtain ⟨scopes, hhere, hes⟩ := htask
    exact .of_after hm.after ⟨scopes, hhere, hes.cons.1⟩ rfl
  | @nextExprs fuel m e rest value m' he =>
    obtain ⟨scopes, hhere, hes⟩ := htask
    have hafter := (hm.evaluated hhere hes.cons.1 he).1
    exact .of_after hafter ⟨scopes, hhere.after hafter, hes.cons.2⟩ rfl
  -- A function that is called has the number of parameters that the check has found.
  | function =>
    obtain ⟨hf, hvalues, harity⟩ := htask
    exact .of_after hm.after ⟨hf, hvalues, Option.some.inj harity⟩ rfl
  -- The class has the arity of its initializer, and a bound method has that of the method.
  | @initializer fuel m c arguments line owner m₁ method f m₂ hinstance hmethod hbind =>
    obtain ⟨hc, hvalues, harity⟩ := htask
    obtain ⟨hafter₁, hcls, -⟩ := Keeps.of_ok (Keeps.newInstance hm c) hinstance
    have hclass : ClassOk V m₁.frames c := ClassOk.grow hafter₁.grows hc
    have howner : ClassOk V m₁.frames owner.cls := hcls ▸ hclass
    obtain ⟨hafter₂, hf, hdeclaration⟩ := Keeps.of_ok
      (Keeps.bindMethod hafter₁.sound (hclass.findMethod? hmethod) howner) hbind
    have hafter := hafter₁.trans hafter₂
    refine .of_after hafter ⟨hf, hvalues.grow hafter.grows, ?_⟩ rfl
    have harity' : c.arity = arguments.length := Option.some.inj harity
    rw [← harity', Class.arity_of_initializer hmethod, Function.arity, hdeclaration]
    rfl
  -- The parameters are bound in a frame of the closure, which mirrors the scope of the body.
  | @body fuel m f arguments line frame m' hbind =>
    obtain ⟨hf, hvalues, harity⟩ := htask
    obtain ⟨routine, r, hroutine, hmirrors, -⟩ := hf.routine
    obtain ⟨hafter, hbound, houter⟩ :=
      Keeps.of_ok (Keeps.bindArguments hm hroutine hmirrors hvalues harity) hbind
    exact ⟨⟨hafter.sound.of_eq rfl rfl rfl, _, hbound, hroutine.body⟩, hafter.grows,
      hafter.distances, (fun hopens => by cases hopens), fun _ => houter⟩
  | expression =>
    obtain ⟨r, hhere, hs⟩ := htask
    exact .of_after hm.after ⟨_, hhere, hs.expression⟩ rfl
  -- The name is declared in front of its initializer, and readable behind it.
  | var =>
    obtain ⟨r, hhere, hs⟩ := htask
    exact .of_after hm.after ⟨_, Mirrors.declare hhere hs.shaped, hs.initializer⟩ rfl
  -- A block has a frame of its own, as the walk has a scope for it.
  | @block fuel m body frame m' hframe =>
    obtain ⟨r, hhere, hs⟩ := htask
    obtain ⟨hafter, rfl, hframes⟩ := Keeps.of_ok (Keeps.newInnerFrame hm) hframe
    have hchild := Mirrors.child hhere hm.global
    have houter := Frames.enclosing?_child_next (Mirrors.lt hhere hm.global)
    rw [← hframes] at hchild houter
    exact ⟨⟨hafter.sound.of_eq rfl rfl rfl, r.openScope, hchild, hs.block⟩, hafter.grows,
      hafter.distances, (fun hopens => by cases hopens), fun _ => houter⟩
  | condition =>
    obtain ⟨r, hhere, hs⟩ := htask
    exact .of_after hm.after ⟨_, hhere, hs.conditional.1⟩ rfl
  -- Resolving the condition opens no scope, so the branch stands where the condition did.
  | @thenBranch fuel m condition thenBranch elseBranch value m' hcondition =>
    obtain ⟨r, hhere, hs⟩ := htask
    obtain ⟨htest, hthen, -, -⟩ := hs.conditional
    have hafter := (hm.evaluated hhere htest hcondition).1
    exact .of_after hafter ⟨_, (hhere.after hafter).resolve condition, hthen⟩ rfl
  -- The branch in front declares nothing, so both branches stand in the same scopes.
  | @elseBranch fuel m condition thenBranch elseBranch value m' hcondition =>
    obtain ⟨r, hhere, hs⟩ := htask
    obtain ⟨htest, hthen, hclosed, helse⟩ := hs.conditional
    have hafter := (hm.evaluated hhere htest hcondition).1
    refine .of_after hafter ⟨_, ?_, (helse elseBranch rfl).1⟩ rfl
    rw [Stmt.scopes_of_declares_nothing hthen.shaped hclosed]
    exact (hhere.after hafter).resolve condition
  | loop =>
    obtain ⟨r, hhere, hs⟩ := htask
    exact .of_after hm.after ⟨r, hhere, hs.loop⟩ rfl
  -- A return has a value only where the walk allows one.
  | returning =>
    obtain ⟨r, hhere, hs⟩ := htask
    exact .of_after hm.after ⟨_, hhere, (hs.returning.2 _ rfl).1⟩ rfl
  | firstStmt =>
    obtain ⟨r, hhere, hss⟩ := htask
    exact .of_after hm.after ⟨r, hhere, hss.cons.1⟩ rfl
  -- The statement in front may have declared a name, which `executed` accounts for.
  | @nextStmts fuel m s rest m' hs =>
    obtain ⟨r, hhere, hss⟩ := htask
    obtain ⟨hafter, hflow⟩ := hm.executed hhere hss.cons.1 hs
    exact .of_after hafter ⟨_, hflow, hss.cons.2⟩ rfl
  | test =>
    obtain ⟨r, hhere, hloop⟩ := htask
    exact .of_after hm.after ⟨_, hhere, hloop.test⟩ rfl
  -- A turn of the body is behind a test.
  | @turn fuel m condition body increment value m' htest =>
    obtain ⟨r, hhere, hloop⟩ := htask
    have hafter := (hm.evaluated hhere hloop.test htest).1
    refine .of_after hafter ⟨_, ?_, hloop.inner⟩ rfl
    exact (hhere.after hafter).resolve condition
  -- The increment and the next turn are behind a whole turn of the body.
  | increment htest _ hbody =>
    obtain ⟨r, hhere, hloop⟩ := htask
    have hafter := hloop.after_turn hm hhere htest hbody
    exact .of_after hafter ⟨_, hhere.after hafter, hloop.step _ rfl⟩ rfl
  | again htest _ hbody =>
    obtain ⟨r, hhere, hloop⟩ := htask
    have hafter := hloop.after_turn hm hhere htest hbody
    exact .of_after hafter ⟨r, hhere.after hafter, hloop⟩ rfl
  -- The increment is in between, and leaves the scopes of the loop as they are.
  | @againAfter fuel m condition body step value m₁ flow m₂ result m₃ htest _ hbody _ hstep =>
    obtain ⟨r, hhere, hloop⟩ := htask
    have hafter := hloop.after_turn hm hhere htest hbody
    have hhere₂ := hhere.after hafter
    have hafter₃ := (hafter.sound.evaluated hhere₂ (hloop.step step rfl) hstep).1
    exact .of_after (hafter.trans hafter₃) ⟨r, hhere₂.after hafter₃, hloop⟩ rfl

theorem Moment.Ok.leads {x y : Moment} (h : x.Ok V) (hleads : Leads rules x y) : y.Ok V :=
  (h.led hleads).ok

/-- Every moment of a run is as it should be. -/
theorem Moment.Ok.passes {start x : Moment} (h : start.Ok V) (hpasses : Passes rules start x) :
    x.Ok V := by
  induction hpasses with
  | start => exact h
  | step _ hleads ih => exact ih.leads hleads

/-- Where a name is looked up, the frames mirror the scopes in which it was visited. -/
theorem Moment.Ok.looks {x : Moment} {kind : OccurrenceKind} {place : Occurrence} {m : Machine}
    (h : x.Ok V) (hlooks : Looks rules x kind place m) :
    Sound V m ∧ ∃ scopes, Here m scopes ∧ PlaceOk V scopes kind place := by
  obtain ⟨hm, htask⟩ := h
  cases hlooks with
  | read =>
    obtain ⟨scopes, hhere, he⟩ := htask
    exact ⟨hm, scopes, hhere, he.read⟩
  | this =>
    obtain ⟨scopes, hhere, he⟩ := htask
    exact ⟨hm, scopes, hhere, he.this⟩
  | super =>
    obtain ⟨scopes, hhere, he⟩ := htask
    exact ⟨hm, scopes, hhere, he.super⟩
  | assign =>
    obtain ⟨scopes, hhere, he⟩ := htask
    exact ⟨hm, scopes, hhere, he.assign.2⟩
  | @assigned fuel m place value result m' hvalue =>
    obtain ⟨scopes, hhere, he⟩ := htask
    have hafter := (hm.evaluated hhere he.assign.1 hvalue).1
    exact ⟨hafter.sound, scopes, hhere.after hafter, he.assign.2⟩
  | superclass hdefine =>
    obtain ⟨r, hhere, hs⟩ := htask
    obtain ⟨hafter, hframes⟩ := Keeps.of_ok (Keeps.define hm hs.shaped.1 (by trivial)) hdefine
    exact ⟨hafter.sound, _, hhere.define hm hs.shaped.1 hafter hframes, hs.superclass⟩

/-- An initializer that is about to return finds its instance. -/
theorem Moment.Ok.returns {x : Moment} {f : Function} {m : Machine} (h : x.Ok V)
    (hreturns : Returns rules x f m) (hinit : f.isInitializer = true) :
    ∃ owner, m.frames.findIn? f.closure "this" = some (.object owner) := by
  obtain ⟨hm, htask⟩ := h
  cases hreturns with
  | @mk fuel m₀ _ arguments line frame m₁ flow _ hbind hbody =>
    obtain ⟨hf, hvalues, harity⟩ := htask
    obtain ⟨routine, r, hroutine, hmirrors, -⟩ := hf.routine
    obtain ⟨hafter₁, hbound, -⟩ :=
      Keeps.of_ok (Keeps.bindArguments hm hroutine hmirrors hvalues harity) hbind
    have hinner : Sound V { m₁ with current := frame } := hafter₁.sound.of_eq rfl rfl rfl
    have hkeeps := (soundAt V rules fuel).executeEach hinner hbound hroutine.body
    have hframe : Keeps V m₁ (fun _ _ => True)
        (inFrame frame (Exec.executeEach rules fuel f.declaration.body) m₁) :=
      Keeps.inFrame hkeeps fun _ _ _ _ => trivial
    have hafter₂ := (Keeps.of_ok hframe hbody).1
    have hgrows := hafter₁.grows.trans hafter₂.grows
    exact (hf.mono (fun _ hv => hv) hgrows).initializer hinit

end Lox
