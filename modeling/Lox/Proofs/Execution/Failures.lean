import Lox.Proofs.Execution.Moments
import Lox.Proofs.Execution.Restored
import Lox.Proofs.Execution.Similar

/-!
# Which task an error comes from

An error that stops a part of a task stops the task.  So every error of a run is raised
by one of its tasks itself, when all its parts so far have ended well.  An overflow of
the calls is raised by a call expression whose callee and arguments are there, and by
nothing else.
-/

namespace Lox

open Exec

def Exec.Fails {α : Type} (p : Exec α) (m : Machine) (e : RuntimeError) : Prop :=
  ∃ m', p m = .error (.error e) m'

section

variable {α β : Type} {p : Exec α} {f : α → Exec β} {m m' : Machine} {a : α} {e : RuntimeError}

namespace Exec.Fails

theorem bind (h : p.Fails m e) : (p >>= f).Fails m e := by
  obtain ⟨m', hp⟩ := h
  exact ⟨m', bind_of_error hp⟩

theorem after (hp : p m = .ok a m') (h : (f a).Fails m' e) : (p >>= f).Fails m e := by
  obtain ⟨m'', hf⟩ := h
  exact ⟨m'', (bind_of_ok hp).trans hf⟩

theorem inFrame {frame : FrameId} (h : p.Fails { m with current := frame } e) :
    (Exec.inFrame frame p).Fails m e := by
  obtain ⟨m', hp⟩ := h
  refine ⟨{ m' with current := m.current }, ?_⟩
  unfold Exec.inFrame
  rw [hp]

theorem asCall (h : p.Fails { m with depth := m.depth + 1 } e) : (Exec.asCall p).Fails m e := by
  obtain ⟨m', hp⟩ := h
  refine ⟨{ m' with depth := m'.depth - 1 }, ?_⟩
  unfold Exec.asCall
  rw [hp]

theorem not_ok (h : p.Fails m e) : p m ≠ .ok a m' := by
  obtain ⟨m'', hp⟩ := h
  rw [hp]
  simp

end Exec.Fails

theorem Exec.fails_bind_iff :
    (p >>= f).Fails m e ↔ p.Fails m e ∨ ∃ a m', p m = .ok a m' ∧ (f a).Fails m' e := by
  constructor
  · rintro ⟨m', h⟩
    cases hp : p m with
    | ok a m₁ =>
      rw [bind_of_ok hp] at h
      exact .inr ⟨a, m₁, rfl, m', h⟩
    | error interrupt m₁ =>
      rw [bind_of_error hp] at h
      cases h
      exact .inl ⟨_, hp⟩
  · rintro (h | ⟨a, m', hp, h⟩)
    · exact h.bind
    · exact .after hp h

theorem Exec.fails_inFrame_iff {frame : FrameId} :
    (inFrame frame p).Fails m e ↔ p.Fails { m with current := frame } e := by
  constructor
  · rintro ⟨m', h⟩
    unfold inFrame at h
    cases hp : p { m with current := frame } with
    | ok a m₁ =>
      rw [hp] at h
      cases h
    | error interrupt m₁ =>
      rw [hp] at h
      cases h
      exact ⟨m₁, hp⟩
  · exact Fails.inFrame

theorem Exec.fails_asCall_iff :
    (asCall p).Fails m e ↔ p.Fails { m with depth := m.depth + 1 } e := by
  constructor
  · rintro ⟨m', h⟩
    unfold asCall at h
    cases hp : p { m with depth := m.depth + 1 } with
    | ok a m₁ =>
      rw [hp] at h
      cases h
    | error interrupt m₁ =>
      rw [hp] at h
      cases h
      exact ⟨m₁, hp⟩
  · exact Fails.asCall

theorem Exec.fails_lift_iff {result : Except RuntimeError α} :
    (lift result).Fails m e ↔ result = .error e := by
  cases result with
  | ok a => simp [Exec.Fails, lift, pure, EStateM.pure]
  | error e' =>
    constructor
    · rintro ⟨m', h⟩
      cases h
      rfl
    · rintro h
      cases h
      exact ⟨m, rfl⟩

theorem Exec.fails_fail_iff {cause : RuntimeCause} {line : Nat} :
    (fail cause line : Exec α).Fails m e ↔ e = ⟨cause, line⟩ := by
  constructor
  · rintro ⟨m', h⟩
    cases h
    rfl
  · rintro rfl
    exact ⟨m, rfl⟩

end

/-! ### Tasks that fail -/

def Moment.Fails (rules : Rules) (x : Moment) (e : RuntimeError) : Prop :=
  match x.task with
  | .evaluate expr => (Exec.evaluate rules x.fuel expr).Fails x.machine e
  | .evaluateEach es => (Exec.evaluateEach rules x.fuel es).Fails x.machine e
  | .call callee arguments line =>
    (Exec.call rules x.fuel callee arguments line).Fails x.machine e
  | .callFunction f arguments line =>
    (Exec.callFunction rules x.fuel f arguments line).Fails x.machine e
  | .execute s => (Exec.execute rules x.fuel s).Fails x.machine e
  | .executeEach ss => (Exec.executeEach rules x.fuel ss).Fails x.machine e
  | .iterate condition body increment =>
    (Exec.iterate rules x.fuel condition body increment).Fails x.machine e

/-- The task itself raises the error that it is stopped by: none of its parts does. -/
def Moment.Raises (rules : Rules) (x : Moment) (e : RuntimeError) : Prop :=
  x.Fails rules e ∧ ∀ y, Leads rules x y → ¬ y.Fails rules e

variable {rules : Rules} {x y start : Moment} {e : RuntimeError}

/-- An error that stops a part of a task stops the task. -/
theorem Leads.fails (h : Leads rules x y) (hy : y.Fails rules e) : x.Fails rules e := by
  unfold Moment.Fails at *
  -- A part fails in the place where the task runs it: the computations before it have ended
  -- well, and those behind it are not reached.
  cases h with
  | group => exact hy
  | unary | binaryLeft | logicalLeft | assign | callee | get | setObject => exact Fails.bind hy
  | firstExpr | expression | var | condition | returning | firstStmt => exact Fails.bind hy
  | binaryRight hleft => exact .after hleft (.bind hy)
  -- The left side has not decided, so the logical expression is its right side.
  | logicalRight hleft hdecides =>
    refine .after hleft ?_
    rw [if_neg (by simp [hdecides])]
    exact hy
  | arguments hcallee => exact .after hcallee (.bind hy)
  | call hcallee harguments hcheck =>
    exact .after hcallee (.after harguments (.after hcheck (.asCall hy)))
  | setValue hobject => exact .after hobject (.bind hy)
  | nextExprs hfirst => exact .after hfirst (.bind hy)
  | function => exact hy
  -- The instance and the bound initializer are there; what fails is the initializer's call.
  | initializer hinstance hmethod hbind =>
    simp only [Exec.call]
    refine .after hinstance ?_
    rw [hmethod]
    exact .after hbind (.bind hy)
  | body hbind => exact .after hbind (.bind (.inFrame hy))
  | block hframe => exact .after hframe (.inFrame hy)
  | thenBranch htest htruthy =>
    simp only [Exec.execute]
    refine .after htest ?_
    rw [if_pos htruthy]
    exact hy
  | elseBranch htest htruthy =>
    simp only [Exec.execute]
    refine .after htest ?_
    rw [if_neg (by simp [htruthy])]
    exact hy
  | loop => exact hy
  | nextStmts hfirst => exact .after hfirst hy
  | test =>
    simp only [iterate_succ]
    exact .bind hy
  | turn htest htruthy =>
    simp only [iterate_succ]
    refine .after htest ?_
    rw [if_pos htruthy]
    exact .bind hy
  -- The turn goes on, and what is left of it is the increment and the next turn.
  | increment htest htruthy hbody hflow =>
    obtain ⟨m', hy⟩ := hy
    refine ⟨m', ?_⟩
    simp only [iterate_of_goesOn htest htruthy hbody hflow]
    exact bind_of_error hy
  | again htest htruthy hbody hflow =>
    obtain ⟨m', hy⟩ := hy
    refine ⟨m', ?_⟩
    simp only [iterate_of_goesOn htest htruthy hbody hflow]
    exact hy
  | againAfter htest htruthy hbody hflow hstep =>
    obtain ⟨m', hy⟩ := hy
    refine ⟨m', ?_⟩
    simp only [iterate_of_goesOn htest htruthy hbody hflow, nextTurn_of_evaluate hstep]
    exact hy

theorem Passes.fails (h : Passes rules start x) (hx : x.Fails rules e) : start.Fails rules e := by
  induction h with
  | start => exact hx
  | step _ hleads ih => exact ih (hleads.fails hx)

/-- A task is stopped by one error. -/
theorem Moment.Fails.unique {e' : RuntimeError} (h : x.Fails rules e) (h' : x.Fails rules e') :
    e = e' := by
  obtain ⟨fuel, task, m⟩ := x
  cases task with
  | _ =>
    obtain ⟨m₁, hrun⟩ := h
    obtain ⟨m₂, hrun'⟩ := h'
    cases hrun.symm.trans hrun'
    rfl

/-! ### Errors of computations -/

def Exec.FailsOnly {α : Type} (Q : RuntimeError → Prop) (p : Exec α) : Prop :=
  ∀ m e, p.Fails m e → Q e

/-- Every error at the line is one of these, except for an overflow of the calls. -/
abbrev RuntimeError.AllAt (Q : RuntimeError → Prop) (line : Nat) : Prop :=
  ∀ cause, cause ≠ .stackOverflow → Q ⟨cause, line⟩

namespace Exec.FailsOnly

variable {α β : Type} {Q : RuntimeError → Prop} {p : Exec α} {line : Nat}

theorem pure (a : α) : FailsOnly Q (Pure.pure a : Exec α) := by
  rintro m e ⟨m', h⟩
  cases h

theorem fail {cause : RuntimeCause} (h : Q ⟨cause, line⟩) :
    FailsOnly Q (Exec.fail cause line : Exec α) := by
  intro m e hfails
  rw [fails_fail_iff.mp hfails]
  exact h

theorem lift {result : Except RuntimeError α} (h : ∀ e, result = .error e → Q e) :
    FailsOnly Q (Exec.lift result) :=
  fun _ e hfails => h e (fails_lift_iff.mp hfails)

theorem bind {f : α → Exec β} (hp : FailsOnly Q p) (hf : ∀ a, FailsOnly Q (f a)) :
    FailsOnly Q (p >>= f) := by
  intro m e h
  rcases fails_bind_iff.mp h with h | ⟨a, m', -, h⟩
  · exact hp m e h
  · exact hf a m' e h

theorem map {f : α → β} (hp : FailsOnly Q p) : FailsOnly Q (f <$> p) := by
  have hbind : f <$> p = p >>= fun a => Pure.pure (f a) := (bind_pure_comp f p).symm
  rw [hbind]
  exact hp.bind fun a => .pure _

/-! ### Steps that always go well -/

theorem of_ok (h : ∀ m, ∃ a m', p m = .ok a m') : FailsOnly Q p := by
  rintro m e ⟨m', hfails⟩
  obtain ⟨a, m'', hok⟩ := h m
  rw [hok] at hfails
  cases hfails

theorem get : FailsOnly Q (MonadState.get : Exec Machine) := of_ok fun _ => ⟨_, _, rfl⟩

theorem modify (f : Machine → Machine) : FailsOnly Q (modify f : Exec Unit) :=
  of_ok fun _ => ⟨_, _, rfl⟩

theorem newFrame (outer : FrameId) : FailsOnly Q (Exec.newFrame outer) :=
  of_ok fun _ => ⟨_, _, rfl⟩

theorem newInnerFrame : FailsOnly Q Exec.newInnerFrame := of_ok fun _ => ⟨_, _, rfl⟩

theorem newIdentity : FailsOnly Q Exec.newIdentity := of_ok fun _ => ⟨_, _, rfl⟩

theorem newInstance (c : Class) : FailsOnly Q (Exec.newInstance c) := of_ok fun _ => ⟨_, _, rfl⟩

theorem outOfFuel : FailsOnly Q (Exec.outOfFuel : Exec α) := by
  rintro m e ⟨m', h⟩
  cases h

theorem newFunction (d : FunctionDecl) (closure : FrameId) (isInitializer : Bool) :
    FailsOnly Q (Exec.newFunction d closure isInitializer) :=
  newIdentity.bind fun _ => .pure _

theorem bindMethod (method : Function) (owner : Instance) : FailsOnly Q (Exec.bind method owner) :=
  (newFrame _).bind fun _ => (modify _).bind fun _ => newFunction _ _ _

theorem makeMethods (frame : FrameId) (declarations : List FunctionDecl) :
    FailsOnly Q (Exec.makeMethods frame declarations) := by
  rw [Exec.makeMethods_eq]
  generalize Bindings.empty = methods
  induction declarations generalizing methods with
  | nil => exact .pure _
  | cons declaration rest ih =>
    rw [Exec.addMethods_cons]
    exact (newFunction _ _ _).bind fun _ => ih _

theorem methodFrame (superclass : Option Class) : FailsOnly Q (Exec.methodFrame superclass) := by
  cases superclass with
  | some parent => exact newInnerFrame.bind fun _ => (modify _).bind fun _ => .pure _
  | none => exact get.bind fun _ => .pure _

theorem bindArguments (function : Function) (arguments : List Value) :
    FailsOnly Q (Exec.bindArguments function arguments) := by
  refine (newFrame _).bind fun frame => bind ?_ fun _ => .pure _
  induction function.declaration.parameters.zip arguments with
  | nil => exact .pure _
  | cons pair rest ih => exact (modify _).bind fun _ => ih

/-! ### Steps that fail at one line -/

theorem getAt (frames : Frames Value) (f : FrameId) (distance : Nat) (name : String)
    (h : Q ⟨.unresolvedBinding name distance, line⟩) :
    FailsOnly Q (Exec.lift (frames.getAt f distance name line)) := by
  apply lift
  unfold Frames.getAt
  split
  · simp
  · rintro e ⟨⟩
    exact h

theorem getByName (frames : Frames Value) (f : FrameId) (name : String)
    (h : Q ⟨.undefinedVariable name, line⟩) :
    FailsOnly Q (Exec.lift (frames.get f name line)) := by
  apply lift
  unfold Frames.get
  split
  · simp
  · rintro e ⟨⟩
    exact h

theorem write (text : String) (h : RuntimeError.AllAt Q line) :
    FailsOnly Q (Exec.write text line) := by
  refine get.bind fun m => ?_
  split
  · exact .fail (h _ (by simp))
  · exact .modify _

variable {place : Occurrence}

theorem readResolved (h : RuntimeError.AllAt Q place.line) :
    FailsOnly Q (Exec.readResolved place) := by
  refine get.bind fun m => ?_
  split
  · exact .getAt _ _ _ _ (h _ (by simp))
  · exact .getByName _ _ _ (h _ (by simp))

variable (rules : Rules)

theorem readVariable (h : RuntimeError.AllAt Q place.line) :
    FailsOnly Q (Exec.readVariable rules place) := by
  unfold Exec.readVariable
  split
  · exact readResolved h
  · exact get.bind fun m => .getByName _ _ _ (h _ (by simp))

theorem target (h : RuntimeError.AllAt Q place.line) (m : Machine) :
    FailsOnly Q (Exec.lift (Exec.target rules place m)) := by
  apply lift
  unfold Exec.target Frames.frameOf Frames.frameAt
  intro e hfails
  split at hfails
  · split at hfails <;> cases hfails
    exact h _ (by simp)
  · split at hfails <;> split at hfails <;> cases hfails <;> exact h _ (by simp)

theorem assignVariable (h : RuntimeError.AllAt Q place.line) (value : Value) :
    FailsOnly Q (Exec.assignVariable rules place value) :=
  get.bind fun m => (target rules h m).bind fun _ => .modify _

theorem getProperty (owner : Instance) {name : Token} (h : RuntimeError.AllAt Q name.line) :
    FailsOnly Q (Exec.getProperty owner name) := by
  refine get.bind fun m => ?_
  split
  · exact .pure _
  · split
    · exact (bindMethod _ _).bind fun _ => .pure _
    · exact .fail (h _ (by simp))

/-- At the keyword there is only what no program raises. -/
theorem getSuper {method : Token} (h : ∀ cause, ¬ cause.Harmless → Q ⟨cause, place.line⟩)
    (h' : RuntimeError.AllAt Q method.line) : FailsOnly Q (Exec.getSuper place method) := by
  refine get.bind fun m => ?_
  split
  · exact .fail (h _ id)
  · refine (getAt _ _ _ _ (h _ id)).bind fun parent => (getAt _ _ _ _ (h _ id)).bind fun owner => ?_
    split
    · split
      · exact (bindMethod _ _).bind fun _ => .pure _
      · exact .fail (h' _ (by simp))
    · exact .fail (h _ id)

theorem superclassOf {superclass : Option Occurrence}
    (h : ∀ place ∈ superclass, RuntimeError.AllAt Q place.line) :
    FailsOnly Q (Exec.superclassOf rules superclass) := by
  cases superclass with
  | some place =>
    have hplace := h place rfl
    refine map ((readVariable rules hplace).bind fun value => ?_)
    cases value with
    | «class» parent => exact .pure _
    | _ => exact .fail (hplace _ (by simp))
  | none => exact .pure _

theorem declareClass (name : Token) {superclass : Option Occurrence}
    (h : ∀ place ∈ superclass, RuntimeError.AllAt Q place.line) (methods : List FunctionDecl) :
    FailsOnly Q (Exec.declareClass rules name superclass methods) := by
  rw [declareClass_eq]
  refine (modify _).bind fun _ => (superclassOf rules h).bind fun parent => ?_
  exact (methodFrame parent).bind fun frame => (makeMethods frame methods).bind fun own =>
    newIdentity.bind fun _ => .modify _

theorem callNative (native : Native) (arguments : List Value) (h : RuntimeError.AllAt Q line) :
    FailsOnly Q (Exec.callNative rules native arguments line) := by
  cases native with
  | clock => exact (of_ok fun _ => ⟨_, _, rfl⟩).bind fun _ => .pure _
  | print => exact (write _ h).bind fun _ => (write _ h).bind fun _ => .pure _

/-- Returning from a call fails only where an initializer has lost its instance. -/
theorem callResult (function : Function) (flow : Flow)
    (h : ∀ cause, ¬ cause.Harmless → Q ⟨cause, line⟩) :
    FailsOnly Q (Exec.callResult function flow line) := by
  unfold Exec.callResult
  split
  · exact get.bind fun _ => .getAt _ _ _ _ (h _ id)
  · exact .pure _

/-- An operator reports its errors at its own line, and none of them is an overflow. -/
theorem operator {n' : Nat} {result result' : Except RuntimeError Value}
    (hsame : Operator.Same line n' result result') (h : RuntimeError.AllAt Q line) :
    FailsOnly Q (Exec.lift result) := by
  apply lift
  rintro e rfl
  cases hsame with
  | error hoperator =>
    apply h
    rintro rfl
    exact hoperator

end Exec.FailsOnly

/-! ### The step that fails -/

/--
A step of the task itself is stopped by the error: the operation of an operator, a lookup,
the checks in front of a call, or a native function that is called.
-/
inductive Moment.Faults (rules : Rules) : Moment → RuntimeError → Prop where
  | unary {fuel m operator operand value m₁ e} :
      Exec.evaluate rules fuel operand m = .ok value m₁ → Operator.unary operator value = .error e →
      Faults rules ⟨fuel + 1, .evaluate (.unary operator operand), m⟩ e
  | binary {fuel m left operator right leftValue m₁ rightValue m₂ e} :
      Exec.evaluate rules fuel left m = .ok leftValue m₁ →
      Exec.evaluate rules fuel right m₁ = .ok rightValue m₂ →
      Operator.binary operator leftValue rightValue = .error e →
      Faults rules ⟨fuel + 1, .evaluate (.binary left operator right), m⟩ e
  | read {fuel m place e} : (readVariable rules place).Fails m e →
      Faults rules ⟨fuel + 1, .evaluate (.read place), m⟩ e
  | assign {fuel m place value result m₁ e} : Exec.evaluate rules fuel value m = .ok result m₁ →
      (assignVariable rules place result).Fails m₁ e →
      Faults rules ⟨fuel + 1, .evaluate (.assign place value), m⟩ e
  | check {fuel m callee paren arguments value m₁ values m₂ e} :
      Exec.evaluate rules fuel callee m = .ok value m₁ →
      Exec.evaluateEach rules fuel arguments m₁ = .ok values m₂ →
      (checkCall rules value values.length paren.line).Fails m₂ e →
      Faults rules ⟨fuel + 1, .evaluate (.call callee paren arguments), m⟩ e
  | notObject {fuel m object name value m₁} : Exec.evaluate rules fuel object m = .ok value m₁ →
      Faults rules ⟨fuel + 1, .evaluate (.get object name), m⟩ ⟨.noProperties, name.line⟩
  | property {fuel m object name owner m₁ e} :
      Exec.evaluate rules fuel object m = .ok (.object owner) m₁ →
      (getProperty owner name).Fails m₁ e →
      Faults rules ⟨fuel + 1, .evaluate (.get object name), m⟩ e
  | notFields {fuel m object name value result m₁} :
      Exec.evaluate rules fuel object m = .ok result m₁ →
      Faults rules ⟨fuel + 1, .evaluate (.set object name value), m⟩ ⟨.noFields, name.line⟩
  | this {fuel m place e} : (readResolved place).Fails m e →
      Faults rules ⟨fuel + 1, .evaluate (.this place), m⟩ e
  | super {fuel m place method e} : (getSuper place method).Fails m e →
      Faults rules ⟨fuel + 1, .evaluate (.super place method), m⟩ e
  | class {fuel m name superclass methods e} :
      (declareClass rules name superclass methods).Fails m e →
      Faults rules ⟨fuel + 1, .execute (.class name superclass methods), m⟩ e
  | native {fuel m native arguments line e} : (callNative rules native arguments line).Fails m e →
      Faults rules ⟨fuel + 1, .call (.native native) arguments line, m⟩ e
  | uncallable {fuel m callee arguments line} : callee.arity? = none →
      Faults rules ⟨fuel + 1, .call callee arguments line, m⟩ ⟨.notCallable, line⟩
  | result {fuel m f arguments line flow m₁ e} : (callResult f flow line).Fails m₁ e →
      Faults rules ⟨fuel + 1, .callFunction f arguments line, m⟩ e

/-- The error stops a part of the task, or a step of the task itself. -/
def Moment.FailsWithin (rules : Rules) (x : Moment) (e : RuntimeError) : Prop :=
  (∃ y, Leads rules x y ∧ y.Fails rules e) ∨ x.Faults rules e

section

variable {fuel : Nat} {m : Machine}

/-- What cannot fail has not failed. -/
theorem Exec.FailsOnly.absurd {α : Type} {p : Exec α} (h : FailsOnly (fun _ => False) p)
    (hfails : p.Fails m e) {P : Prop} : P :=
  (h m e hfails).elim

theorem Moment.failsWithin_evaluate {expr : Expr}
    (h : (Exec.evaluate rules (fuel + 1) expr).Fails m e) :
    FailsWithin rules ⟨fuel + 1, .evaluate expr, m⟩ e := by
  -- Each computation of a sequence either fails, as a part or as a fault of the task itself,
  -- or has ended well and names the machine of the next one.
  cases expr with
  | literal value => exact (FailsOnly.pure _).absurd h
  | group inner => exact .inl ⟨_, .group, h⟩
  | unary operator operand =>
    rcases fails_bind_iff.mp h with hoperand | ⟨value, m₁, hoperand, h⟩
    · exact .inl ⟨_, .unary, hoperand⟩
    · exact .inr (.unary hoperand (fails_lift_iff.mp h))
  | binary left operator right =>
    rcases fails_bind_iff.mp h with hleft | ⟨leftValue, m₁, hleft, h⟩
    · exact .inl ⟨_, .binaryLeft, hleft⟩
    rcases fails_bind_iff.mp h with hright | ⟨rightValue, m₂, hright, h⟩
    · exact .inl ⟨_, .binaryRight hleft, hright⟩
    · exact .inr (.binary hleft hright (fails_lift_iff.mp h))
  | logical left operator right =>
    rcases fails_bind_iff.mp h with hleft | ⟨leftValue, m₁, hleft, h⟩
    · exact .inl ⟨_, .logicalLeft, hleft⟩
    split at h
    · -- The left side is the result, and no computation fails.
      exact (FailsOnly.pure _).absurd h
    · rename_i hdecides
      exact .inl ⟨_, .logicalRight hleft (Bool.eq_false_iff.mpr hdecides), h⟩
  | read place => exact .inr (.read h)
  | assign place value =>
    rcases fails_bind_iff.mp h with hvalue | ⟨result, m₁, hvalue, h⟩
    · exact .inl ⟨_, .assign, hvalue⟩
    rcases fails_bind_iff.mp h with hassign | ⟨_, m₂, -, h⟩
    · exact .inr (.assign hvalue hassign)
    · exact (FailsOnly.pure _).absurd h
  | call callee paren arguments =>
    rcases fails_bind_iff.mp h with hcallee | ⟨value, m₁, hcallee, h⟩
    · exact .inl ⟨_, .callee, hcallee⟩
    rcases fails_bind_iff.mp h with harguments | ⟨values, m₂, harguments, h⟩
    · exact .inl ⟨_, .arguments hcallee, harguments⟩
    rcases fails_bind_iff.mp h with hcheck | ⟨_, m₃, hcheck, h⟩
    · exact .inr (.check hcallee harguments hcheck)
    · -- The call is made: all that can fail from here on is within it.
      exact .inl ⟨_, .call hcallee harguments hcheck, fails_asCall_iff.mp h⟩
  | get object name =>
    rcases fails_bind_iff.mp h with hobject | ⟨owner, m₁, hobject, h⟩
    · exact .inl ⟨_, .get, hobject⟩
    cases owner with
    | object owner => exact .inr (.property hobject h)
    | _ =>
      -- No instance: the only failure is the complaint about that.
      cases fails_fail_iff.mp h
      exact .inr (.notObject hobject)
  | set object name value =>
    rcases fails_bind_iff.mp h with hobject | ⟨owner, m₁, hobject, h⟩
    · exact .inl ⟨_, .setObject, hobject⟩
    cases owner with
    | object owner =>
      rcases fails_bind_iff.mp h with hvalue | ⟨result, m₂, -, h⟩
      · exact .inl ⟨_, .setValue hobject, hvalue⟩
      · -- Writing a field cannot fail.
        exact ((FailsOnly.modify _).bind fun _ => .pure _).absurd h
    | _ =>
      cases fails_fail_iff.mp h
      exact .inr (.notFields hobject)
  | this place => exact .inr (.this h)
  | super place method => exact .inr (.super h)

theorem Moment.failsWithin_call {callee : Value} {arguments : List Value} {paren : Nat}
    (h : (Exec.call rules (fuel + 1) callee arguments paren).Fails m e) :
    FailsWithin rules ⟨fuel + 1, .call callee arguments paren, m⟩ e := by
  cases callee with
  | native native => exact .inr (.native h)
  | function f => exact .inl ⟨_, .function, h⟩
  | «class» c =>
    simp only [Exec.call] at h
    rcases fails_bind_iff.mp h with hinstance | ⟨owner, m₁, hinstance, h⟩
    · -- Making the instance, binding its initializer and handing it back cannot fail.
      exact (FailsOnly.newInstance c).absurd hinstance
    cases hmethod : c.initializer? with
    | none =>
      rw [hmethod] at h
      exact (FailsOnly.pure _).absurd h
    | some method =>
      rw [hmethod] at h
      rcases fails_bind_iff.mp h with hbind | ⟨f, m₂, hbind, h⟩
      · exact (FailsOnly.bindMethod method owner).absurd hbind
      rcases fails_bind_iff.mp h with hbody | ⟨result, m₃, -, h⟩
      · exact .inl ⟨_, .initializer hinstance hmethod hbind, hbody⟩
      · exact (FailsOnly.pure _).absurd h
  -- Not callable.
  | _ =>
    cases fails_fail_iff.mp h
    exact .inr (.uncallable rfl)

theorem Moment.failsWithin_execute {s : Stmt} (h : (Exec.execute rules (fuel + 1) s).Fails m e) :
    FailsWithin rules ⟨fuel + 1, .execute s, m⟩ e := by
  cases s with
  | expression value =>
    rcases fails_bind_iff.mp h with hvalue | ⟨result, m₁, -, h⟩
    · -- What follows the evaluation cannot fail.
      exact .inl ⟨_, .expression, hvalue⟩
    · exact (FailsOnly.pure _).absurd h
  | var name value =>
    cases value with
    | none => exact ((FailsOnly.modify _).bind fun _ => .pure _).absurd h
    | some value =>
      rcases fails_bind_iff.mp h with hvalue | ⟨result, m₁, -, h⟩
      · exact .inl ⟨_, .var, hvalue⟩
      · exact ((FailsOnly.modify _).bind fun _ => .pure _).absurd h
  | block body =>
    rcases fails_bind_iff.mp h with hframe | ⟨frame, m₁, hframe, h⟩
    · exact FailsOnly.newInnerFrame.absurd hframe
    · exact .inl ⟨_, .block hframe, fails_inFrame_iff.mp h⟩
  | conditional condition thenBranch elseBranch =>
    simp only [Exec.execute] at h
    rcases fails_bind_iff.mp h with htest | ⟨value, m₁, htest, h⟩
    · exact .inl ⟨_, .condition, htest⟩
    by_cases htruthy : value.isTruthy = true
    · rw [if_pos htruthy] at h
      exact .inl ⟨_, .thenBranch htest htruthy, h⟩
    · rw [if_neg htruthy] at h
      cases elseBranch with
      | none => exact (FailsOnly.pure _).absurd h
      | some elseBranch =>
        exact .inl ⟨_, .elseBranch htest (Bool.eq_false_iff.mpr htruthy), h⟩
  | loop condition body increment => exact .inl ⟨_, .loop, h⟩
  | function declaration =>
    -- Making a function and binding it cannot fail.
    have hnever (m : Machine) : FailsOnly (fun _ => False) (do
        let function ← newFunction declaration m.current false
        define declaration.name.lexeme (.function function)
        return Flow.normal) :=
      (FailsOnly.newFunction _ _ _).bind fun _ => (FailsOnly.modify _).bind fun _ => .pure _
    exact (FailsOnly.get.bind hnever).absurd h
  | returning keyword value =>
    cases value with
    | none => exact (FailsOnly.pure _).absurd h
    | some value =>
      rcases fails_bind_iff.mp h with hvalue | ⟨result, m₁, -, h⟩
      · exact .inl ⟨_, .returning, hvalue⟩
      · exact (FailsOnly.pure _).absurd h
  | breaking | continuing => exact (FailsOnly.pure _).absurd h
  | «class» name superclass methods =>
    rcases fails_bind_iff.mp h with hdeclare | ⟨_, m₁, -, h⟩
    · exact .inr (.class hdeclare)
    · exact (FailsOnly.pure _).absurd h

theorem Moment.failsWithin_iterate {condition : Expr} {body : Stmt} {increment : Option Expr}
    (h : (Exec.iterate rules (fuel + 1) condition body increment).Fails m e) :
    FailsWithin rules ⟨fuel + 1, .iterate condition body increment, m⟩ e := by
  rw [iterate_succ] at h
  rcases fails_bind_iff.mp h with htest | ⟨value, m₁, htest, h⟩
  · exact .inl ⟨_, .test, htest⟩
  by_cases htruthy : value.isTruthy = true
  · rw [if_pos htruthy] at h
    rcases fails_bind_iff.mp h with hbody | ⟨flow, m₂, hbody, h⟩
    · exact .inl ⟨_, .turn htest htruthy, hbody⟩
    have hnext : flow = .normal ∨ flow = .continuing →
        (Exec.nextTurn rules fuel condition body increment).Fails m₂ e →
        FailsWithin rules ⟨fuel + 1, .iterate condition body increment, m⟩ e := by
      intro hflow h
      cases increment with
      | none => exact .inl ⟨_, .again htest htruthy hbody hflow, h⟩
      | some step =>
        rcases fails_bind_iff.mp h with hstep | ⟨result, m₃, hstep, h⟩
        · exact .inl ⟨_, .increment htest htruthy hbody hflow, hstep⟩
        · exact .inl ⟨_, .againAfter htest htruthy hbody hflow hstep, h⟩
    cases flow with
    | normal => exact hnext (.inl rfl) h
    | continuing => exact hnext (.inr rfl) h
    | breaking | returning => exact (FailsOnly.pure _).absurd h
  · rw [if_neg htruthy] at h
    exact (FailsOnly.pure _).absurd h

/-- Where a task fails, it is in one of its parts or in a step of its own. -/
theorem Moment.failsWithin (h : x.Fails rules e) : x.FailsWithin rules e := by
  obtain ⟨fuel, task, m⟩ := x
  cases fuel with
  -- Without fuel there is no error.
  | zero => cases task <;> exact FailsOnly.outOfFuel.absurd h
  | succ fuel =>
    cases task with
    | evaluate expr => exact failsWithin_evaluate h
    | evaluateEach es =>
      cases es with
      | nil => exact (FailsOnly.pure _).absurd h
      | cons expr rest =>
        rcases fails_bind_iff.mp h with hfirst | ⟨value, m₁, hfirst, h⟩
        · exact .inl ⟨_, .firstExpr, hfirst⟩
        rcases fails_bind_iff.mp h with hrest | ⟨values, m₂, -, h⟩
        · exact .inl ⟨_, .nextExprs hfirst, hrest⟩
        · exact (FailsOnly.pure _).absurd h
    | call callee arguments paren => exact failsWithin_call h
    | callFunction f arguments paren =>
      rcases fails_bind_iff.mp h with hbind | ⟨frame, m₁, hbind, h⟩
      · -- Binding the arguments cannot fail, however many they are.
        exact (FailsOnly.bindArguments f arguments).absurd hbind
      rcases fails_bind_iff.mp h with hbody | ⟨flow, m₂, -, h⟩
      · exact .inl ⟨_, .body hbind, fails_inFrame_iff.mp hbody⟩
      · -- The body has run, so what fails is taking its result.
        exact .inr (.result h)
    | execute s => exact failsWithin_execute h
    | executeEach ss =>
      cases ss with
      | nil => exact (FailsOnly.pure _).absurd h
      | cons s rest =>
        rcases fails_bind_iff.mp h with hfirst | ⟨flow, m₁, hfirst, h⟩
        · exact .inl ⟨_, .firstStmt, hfirst⟩
        cases flow with
        | normal => exact .inl ⟨_, .nextStmts hfirst, h⟩
        | _ => exact (FailsOnly.pure _).absurd h
    | iterate condition body increment => exact failsWithin_iterate h

end

/-! ### Overflows -/

/-- The checks before a call, on a machine that they leave as it is. -/
theorem Exec.checkCall_eq (rules : Rules) (callee : Value) (count line : Nat) (m : Machine) :
    checkCall rules callee count line m =
      match callee.arity? with
      | none => .error (.error ⟨.notCallable, line⟩) m
      | some arity =>
        if count ≠ arity then .error (.error ⟨.wrongArgumentCount arity count, line⟩) m
        else if rules.callLimit ≤ m.depth then .error (.error ⟨.stackOverflow, line⟩) m
        else .ok () m := by
  unfold checkCall
  cases callee.arity? with
  | none => rfl
  | some arity =>
    by_cases hcount : count = arity
    · simp only [hcount, ne_eq, not_true_eq_false, if_false]
      change (if rules.callLimit ≤ m.depth then fail .stackOverflow line else pure () : Exec Unit) m
        = _
      split <;> rfl
    · simp only [hcount, ne_eq, not_false_eq_true, if_true]
      rfl

theorem Exec.of_checkCall_ok {callee : Value} {count line : Nat} {m m' : Machine}
    (h : checkCall rules callee count line m = .ok () m') :
    m' = m ∧ callee.arity? = some count ∧ m.depth < rules.callLimit := by
  rw [checkCall_eq] at h
  split at h
  · cases h
  · rename_i arity harity
    split at h
    · cases h
    · rename_i hcount
      split at h
      · cases h
      · rename_i hlimit
        cases h
        exact ⟨rfl, by rw [harity, Decidable.not_not.mp hcount], Nat.lt_of_not_le hlimit⟩

theorem Exec.checkCall_overflow_iff {callee : Value} {count line line' : Nat} {m : Machine} :
    (checkCall rules callee count line).Fails m ⟨.stackOverflow, line'⟩ ↔
      callee.arity? = some count ∧ rules.callLimit ≤ m.depth ∧ line' = line := by
  unfold Exec.Fails
  rw [checkCall_eq]
  constructor
  · rintro ⟨m', h⟩
    split at h
    · cases h
    · rename_i arity harity
      split at h
      · cases h
      · rename_i hcount
        split at h
        · rename_i hlimit
          cases h
          exact ⟨by rw [harity, Decidable.not_not.mp hcount], hlimit, rfl⟩
        · cases h
  · rintro ⟨harity, hlimit, rfl⟩
    rw [harity]
    exact ⟨m, by simp [hlimit]⟩

/--
A call expression attempts a call: its callee and its arguments have been evaluated, and
only the checks are left before the callee is entered.
-/
inductive Attempts (rules : Rules) : Moment → Value → List Value → Token → Machine → Prop where
  | mk {fuel m callee paren arguments value m₁ values m₂} :
      Exec.evaluate rules fuel callee m = .ok value m₁ →
      Exec.evaluateEach rules fuel arguments m₁ = .ok values m₂ →
      Attempts rules ⟨fuel + 1, .evaluate (.call callee paren arguments), m⟩ value values paren m₂

/-- A call is attempted that could be made if fewer calls were under way. -/
def Moment.Overflows (rules : Rules) (x : Moment) (line : Nat) : Prop :=
  ∃ callee values paren m, Attempts rules x callee values paren m ∧
    callee.arity? = some values.length ∧ rules.callLimit ≤ m.depth ∧ line = paren.line

/-! ### The line of an error -/

/-- The token at which a task reports an error of its own. -/
def Task.token? : Task → Option Token
  | .evaluate (.unary operator _) | .evaluate (.binary _ operator _) => some operator
  | .evaluate (.read place) | .evaluate (.assign place _) | .evaluate (.this place) =>
    some place.token
  | .evaluate (.call _ paren _) => some paren
  | .evaluate (.get _ name) | .evaluate (.set _ name _) => some name
  | .evaluate (.super _ method) => some method
  | .execute (.class _ (some place) _) => some place.token
  | _ => none

theorem Exec.line_of_checkCall {callee : Value} {count line : Nat} {m : Machine}
    (h : (checkCall rules callee count line).Fails m e) : e.line = line := by
  obtain ⟨m', h⟩ := h
  rw [checkCall_eq] at h
  repeat' split at h
  all_goals cases h <;> rfl

/-- Not an overflow of the calls, and if it is an error of a program, then at this line. -/
structure RuntimeError.Plain (line : Nat) (e : RuntimeError) : Prop where
  calm : e.cause ≠ .stackOverflow
  line : e.cause.Harmless → e.line = line

namespace RuntimeError.Plain

theorem allAt (line : Nat) : AllAt (Plain line) line := fun _ hcause => ⟨hcause, fun _ => rfl⟩

theorem of_not_harmless {cause : RuntimeCause} (h : ¬ cause.Harmless) (line n : Nat) :
    Plain line ⟨cause, n⟩ := by
  refine ⟨?_, fun hharmless => absurd hharmless h⟩
  rintro rfl
  exact h trivial

end RuntimeError.Plain

/-- A step that fails is one call too many, or reports its error at the token of the task. -/
theorem Moment.Faults.overflows_or_plain (h : x.Faults rules e) :
    x.Overflows rules e.line ∧ e.cause = .stackOverflow ∨
      e.cause ≠ .stackOverflow ∧ ∀ t, x.task.token? = some t → e.cause.Harmless → e.line = t.line := by
  -- A failure that is no overflow stands at the token of the task, if the task has one and if
  -- the cause can be met at all in a session.
  have hplain : ∀ {t : Token}, e.Plain t.line → x.task.token? = some t →
      e.cause ≠ .stackOverflow ∧
        ∀ t, x.task.token? = some t → e.cause.Harmless → e.line = t.line := by
    intro t he ht
    refine ⟨he.calm, ?_⟩
    intro t' ht'
    cases ht.symm.trans ht'
    exact he.line
  cases h with
  -- The check of a call is the only step that overflows.
  | @check _ _ _ paren _ _ _ _ m₂ _ hcallee harguments hcheck =>
    by_cases hcause : e.cause = .stackOverflow
    · obtain ⟨cause, line⟩ := e
      cases hcause
      obtain ⟨harity, hlimit, hline⟩ := checkCall_overflow_iff.mp hcheck
      exact .inl ⟨⟨_, _, _, _, .mk hcallee harguments, harity, hlimit, hline⟩, rfl⟩
    · exact .inr (hplain ⟨hcause, fun _ => line_of_checkCall hcheck⟩ rfl)
  | @unary _ m operator _ value _ _ _ herror =>
    have hsame := Operator.same_unary_self operator value
    exact .inr (hplain (FailsOnly.operator hsame (.allAt _) m _ (fails_lift_iff.mpr herror)) rfl)
  | @binary _ m _ operator _ left _ right _ _ _ _ herror =>
    have hsame := Operator.same_binary_self operator left right
    exact .inr (hplain (FailsOnly.operator hsame (.allAt _) m _ (fails_lift_iff.mpr herror)) rfl)
  | read hread => exact .inr (hplain (FailsOnly.readVariable rules (.allAt _) _ _ hread) rfl)
  | assign _ hassign =>
    exact .inr (hplain (FailsOnly.assignVariable rules (.allAt _) _ _ _ hassign) rfl)
  | notObject | notFields => exact .inr (hplain (RuntimeError.Plain.allAt _ _ (by simp)) rfl)
  | property _ hget => exact .inr (hplain (FailsOnly.getProperty _ (.allAt _) _ _ hget) rfl)
  | this hread => exact .inr (hplain (FailsOnly.readResolved (.allAt _) _ _ hread) rfl)
  | super hget =>
    exact .inr (hplain (FailsOnly.getSuper
      (fun _ hcause => RuntimeError.Plain.of_not_harmless hcause _ _) (.allAt _) _ _ hget) rfl)
  -- Only the name of the superclass can fail in the declaration of a class.
  | @«class» _ _ _ superclass _ _ hdeclare =>
    cases superclass with
    | none => exact (FailsOnly.declareClass rules _ (fun _ h => by cases h) _).absurd hdeclare
    | some place =>
      have hplace : ∀ p ∈ some place, RuntimeError.AllAt (RuntimeError.Plain place.line) p.line := by
        rintro _ ⟨⟩
        exact .allAt _
      exact .inr (hplain (FailsOnly.declareClass rules _ hplace _ _ _ hdeclare) rfl)
  -- Calls have no token of their own: the line is handed to them.
  | @native _ _ _ _ line _ hcall =>
    have he := FailsOnly.callNative rules _ _ (RuntimeError.Plain.allAt line) _ _ hcall
    exact .inr ⟨he.calm, fun t ht => by cases ht⟩
  | uncallable => exact .inr ⟨by simp, fun t ht => by cases ht⟩
  | @result _ _ _ _ line _ _ _ hresult =>
    have he := FailsOnly.callResult _ _
      (fun _ hcause => RuntimeError.Plain.of_not_harmless hcause line _) _ _ hresult
    exact .inr ⟨he.calm, fun t ht => by cases ht⟩

/-- Where the calls overflow, it is within a part of the task, or the task attempts the call. -/
theorem Moment.overflowsWithin {line : Nat} (h : x.Fails rules ⟨.stackOverflow, line⟩) :
    (∃ y, Leads rules x y ∧ y.Fails rules ⟨.stackOverflow, line⟩) ∨ x.Overflows rules line := by
  rcases Moment.failsWithin h with hpart | hfaults
  · exact .inl hpart
  · rcases hfaults.overflows_or_plain with ⟨hoverflows, -⟩ | ⟨hcalm, -⟩
    · exact .inr hoverflows
    · exact absurd rfl hcalm

end Lox
