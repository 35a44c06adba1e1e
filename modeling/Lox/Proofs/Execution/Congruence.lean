import Lox.Proofs.Execution.Evaluation

/-!
# Evaluators with other bounds

The evaluator is bounded twice: in the depth of its recursion, and in the number of calls
that can be under way.  With other bounds it takes the same steps in the same order.  So two
evaluators stand in every relation that holds between a step and itself, between the checks
before a call, and that sequences, frames and calls respect.
-/

namespace Lox

open Exec

def Rules.limit (rules : Rules) (calls : Nat) : Rules := { rules with callLimit := calls }

/-- A relation between computations that is respected by all ways to put them together. -/
structure Exec.Congruence (R : ∀ {α : Type}, Exec α → Exec α → Prop) : Prop where
  refl : ∀ {α : Type} (x : Exec α), R x x
  bind : ∀ {α β : Type} {x x' : Exec α} {f f' : α → Exec β}, R x x' → (∀ a, R (f a) (f' a)) →
    R (x >>= f) (x' >>= f')
  inFrame : ∀ {α : Type} {x x' : Exec α} (frame : FrameId), R x x' →
    R (Exec.inFrame frame x) (Exec.inFrame frame x')
  asCall : ∀ {α : Type} {x x' : Exec α}, R x x' → R (Exec.asCall x) (Exec.asCall x')

/-- The second computation gives the result of the first, unless that one is stopped by `stop`. -/
def Exec.Unless (stop : Interrupt → Prop) {α : Type} (x x' : Exec α) : Prop :=
  ∀ m, (∃ e m', x m = .error e m' ∧ stop e) ∨ x' m = x m

namespace Exec.Unless

variable {α β : Type} {stop : Interrupt → Prop} {x x' : Exec α}

theorem refl (x : Exec α) : Unless stop x x := fun _ => .inr rfl

theorem bind {f f' : α → Exec β} (hx : Unless stop x x') (hf : ∀ a, Unless stop (f a) (f' a)) :
    Unless stop (x >>= f) (x' >>= f') := by
  intro m
  change (∃ e m', EStateM.bind x f m = .error e m' ∧ stop e) ∨
    EStateM.bind x' f' m = EStateM.bind x f m
  unfold EStateM.bind
  rcases hx m with ⟨e, m', hstopped, he⟩ | heq
  · exact .inl ⟨e, m', by rw [hstopped], he⟩
  · rw [heq]
    cases x m with
    | ok a m₁ => exact hf a m₁
    | error e m₁ => exact .inr rfl

theorem inFrame (frame : FrameId) (h : Unless stop x x') :
    Unless stop (Exec.inFrame frame x) (Exec.inFrame frame x') := by
  intro m
  unfold Exec.inFrame
  rcases h { m with current := frame } with ⟨e, m', hstopped, he⟩ | heq
  · exact .inl ⟨e, { m' with current := m.current }, by rw [hstopped], he⟩
  · exact .inr (by rw [heq])

theorem asCall (h : Unless stop x x') : Unless stop (Exec.asCall x) (Exec.asCall x') := by
  intro m
  unfold Exec.asCall
  rcases h { m with depth := m.depth + 1 } with ⟨e, m', hstopped, he⟩ | heq
  · exact .inl ⟨e, { m' with depth := m'.depth - 1 }, by rw [hstopped], he⟩
  · exact .inr (by rw [heq])

/-- Whatever stops the first computation, the relation is respected. -/
theorem congruence (stop : Interrupt → Prop) : Exec.Congruence (Unless stop) :=
  ⟨refl, bind, inFrame, asCall⟩

end Exec.Unless

/-- All functions of the evaluator, with two limits of calls and two bounds of the recursion. -/
structure RelatedAt (R : ∀ {α : Type}, Exec α → Exec α → Prop) (rules : Rules)
    (calls fuel fuel' : Nat) : Prop where
  evaluate : ∀ e, R (Exec.evaluate rules fuel e) (Exec.evaluate (rules.limit calls) fuel' e)
  evaluateEach : ∀ es,
    R (Exec.evaluateEach rules fuel es) (Exec.evaluateEach (rules.limit calls) fuel' es)
  call : ∀ callee arguments line, R (Exec.call rules fuel callee arguments line)
    (Exec.call (rules.limit calls) fuel' callee arguments line)
  callFunction : ∀ f arguments line, R (Exec.callFunction rules fuel f arguments line)
    (Exec.callFunction (rules.limit calls) fuel' f arguments line)
  execute : ∀ s, R (Exec.execute rules fuel s) (Exec.execute (rules.limit calls) fuel' s)
  executeEach : ∀ ss,
    R (Exec.executeEach rules fuel ss) (Exec.executeEach (rules.limit calls) fuel' ss)
  iterate : ∀ condition body increment, R (Exec.iterate rules fuel condition body increment)
    (Exec.iterate (rules.limit calls) fuel' condition body increment)

namespace RelatedAt

variable {R : ∀ {α : Type}, Exec α → Exec α → Prop} {rules : Rules} {calls fuel fuel' : Nat}

theorem evaluate_succ (h : RelatedAt R rules calls fuel fuel') (hR : Exec.Congruence R)
    (hcheck : ∀ callee count line, R (Exec.checkCall rules callee count line)
      (Exec.checkCall (rules.limit calls) callee count line)) (e : Expr) :
    R (Exec.evaluate rules (fuel + 1) e) (Exec.evaluate (rules.limit calls) (fuel' + 1) e) := by
  cases e with
  | literal | read | this | super => exact hR.refl _
  | group inner => exact h.evaluate inner
  | unary operator operand => exact hR.bind (h.evaluate operand) fun _ => hR.refl _
  | binary left operator right =>
    exact hR.bind (h.evaluate left) fun _ => hR.bind (h.evaluate right) fun _ => hR.refl _
  | logical left operator right =>
    simp only [Exec.evaluate]
    apply hR.bind (h.evaluate left)
    intro leftValue
    split
    · exact hR.refl _
    · exact h.evaluate right
  | assign place value => exact hR.bind (h.evaluate value) fun _ => hR.refl _
  | call callee paren arguments =>
    apply hR.bind (h.evaluate callee)
    intro callee
    apply hR.bind (h.evaluateEach arguments)
    intro values
    apply hR.bind (hcheck callee values.length paren.line)
    intro _
    exact hR.asCall (h.call callee values paren.line)
  | get object name => exact hR.bind (h.evaluate object) fun _ => hR.refl _
  | set object name value =>
    apply hR.bind (h.evaluate object)
    intro owner
    cases owner with
    | object owner => exact hR.bind (h.evaluate value) fun _ => hR.refl _
    | _ => exact hR.refl _

theorem evaluateEach_succ (h : RelatedAt R rules calls fuel fuel') (hR : Exec.Congruence R)
    (es : List Expr) : R (Exec.evaluateEach rules (fuel + 1) es)
      (Exec.evaluateEach (rules.limit calls) (fuel' + 1) es) := by
  cases es with
  | nil => exact hR.refl _
  | cons e rest =>
    exact hR.bind (h.evaluate e) fun _ => hR.bind (h.evaluateEach rest) fun _ => hR.refl _

theorem call_succ (h : RelatedAt R rules calls fuel fuel') (hR : Exec.Congruence R)
    (callee : Value) (arguments : List Value) (line : Nat) :
    R (Exec.call rules (fuel + 1) callee arguments line)
      (Exec.call (rules.limit calls) (fuel' + 1) callee arguments line) := by
  cases callee with
  | function f => exact h.callFunction f arguments line
  | «class» c =>
    simp only [Exec.call]
    apply hR.bind (hR.refl _)
    intro owner
    cases c.initializer? with
    | none => exact hR.refl _
    | some method =>
      apply hR.bind (hR.refl _)
      intro initializer
      exact hR.bind (h.callFunction initializer arguments line) fun _ => hR.refl _
  | _ => exact hR.refl _

theorem callFunction_succ (h : RelatedAt R rules calls fuel fuel') (hR : Exec.Congruence R)
    (f : Function) (arguments : List Value) (line : Nat) :
    R (Exec.callFunction rules (fuel + 1) f arguments line)
      (Exec.callFunction (rules.limit calls) (fuel' + 1) f arguments line) := by
  apply hR.bind (hR.refl _)
  intro frame
  exact hR.bind (hR.inFrame frame (h.executeEach f.declaration.body)) fun _ => hR.refl _

theorem execute_succ (h : RelatedAt R rules calls fuel fuel') (hR : Exec.Congruence R) (s : Stmt) :
    R (Exec.execute rules (fuel + 1) s) (Exec.execute (rules.limit calls) (fuel' + 1) s) := by
  cases s with
  | function | breaking | continuing | «class» => exact hR.refl _
  | expression value => exact hR.bind (h.evaluate value) fun _ => hR.refl _
  | var name value =>
    cases value with
    | none => exact hR.refl _
    | some value => exact hR.bind (h.evaluate value) fun _ => hR.refl _
  | block body =>
    apply hR.bind (hR.refl _)
    intro frame
    exact hR.inFrame frame (h.executeEach body)
  | conditional condition thenBranch elseBranch =>
    simp only [Exec.execute]
    apply hR.bind (h.evaluate condition)
    intro value
    split
    · exact h.execute thenBranch
    · cases elseBranch with
      | none => exact hR.refl _
      | some elseBranch => exact h.execute elseBranch
  | loop condition body increment => exact h.iterate condition body increment
  | returning keyword value =>
    cases value with
    | none => exact hR.refl _
    | some value => exact hR.bind (h.evaluate value) fun _ => hR.refl _

theorem executeEach_succ (h : RelatedAt R rules calls fuel fuel') (hR : Exec.Congruence R)
    (ss : List Stmt) : R (Exec.executeEach rules (fuel + 1) ss)
      (Exec.executeEach (rules.limit calls) (fuel' + 1) ss) := by
  cases ss with
  | nil => exact hR.refl _
  | cons s rest =>
    apply hR.bind (h.execute s)
    intro flow
    cases flow with
    | normal => exact h.executeEach rest
    | _ => exact hR.refl _

theorem nextTurn (h : RelatedAt R rules calls fuel fuel') (hR : Exec.Congruence R)
    (condition : Expr) (body : Stmt) (increment : Option Expr) :
    R (Exec.nextTurn rules fuel condition body increment)
      (Exec.nextTurn (rules.limit calls) fuel' condition body increment) := by
  cases increment with
  | none => exact h.iterate condition body none
  | some step => exact hR.bind (h.evaluate step) fun _ => h.iterate condition body (some step)

theorem iterate_succ (h : RelatedAt R rules calls fuel fuel') (hR : Exec.Congruence R)
    (condition : Expr) (body : Stmt) (increment : Option Expr) :
    R (Exec.iterate rules (fuel + 1) condition body increment)
      (Exec.iterate (rules.limit calls) (fuel' + 1) condition body increment) := by
  rw [Exec.iterate_succ, Exec.iterate_succ]
  apply hR.bind (h.evaluate condition)
  intro value
  split
  · apply hR.bind (h.execute body)
    intro flow
    cases flow with
    | normal => exact h.nextTurn hR condition body increment
    | continuing => exact h.nextTurn hR condition body increment
    | _ => exact hR.refl _
  · exact hR.refl _

/-- Evaluators that are related are so with bounds of the recursion that are greater by one. -/
theorem succ (h : RelatedAt R rules calls fuel fuel') (hR : Exec.Congruence R)
    (hcheck : ∀ callee count line, R (Exec.checkCall rules callee count line)
      (Exec.checkCall (rules.limit calls) callee count line)) :
    RelatedAt R rules calls (fuel + 1) (fuel' + 1) :=
  ⟨h.evaluate_succ hR hcheck, h.evaluateEach_succ hR, h.call_succ hR, h.callFunction_succ hR,
    h.execute_succ hR, h.executeEach_succ hR, h.iterate_succ hR⟩

/-- Evaluators that go no step are related if the computation that goes no step is. -/
theorem zero (h : ∀ {α : Type} (x : Exec α), R Exec.outOfFuel x) :
    RelatedAt R rules calls 0 fuel' := by
  constructor
  all_goals
    intros
    exact h _

/-- Two evaluators that go no step are related. -/
theorem none (hR : Exec.Congruence R) : RelatedAt R rules calls 0 0 := by
  constructor
  all_goals
    intros
    exact hR.refl _

end RelatedAt

end Lox
