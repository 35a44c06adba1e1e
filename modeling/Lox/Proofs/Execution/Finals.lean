import Lox.Proofs.Execution.Signals

/-!
# The machine that a task ends in

Every task ends in a machine, also where an error stops it.  What is done between the
beginning of a task and its end, and between the end of a part and the end of the task
it is a part of, makes frames grow and forgets no distance.
-/

namespace Lox

open Resolution Exec

variable {V : Visit → Prop} {rules : Rules} {m m' m'' : Machine}

/-- Frames grew, and every distance is known as before. -/
structure Extends (m m' : Machine) : Prop where
  grows : Grows m.frames m'.frames
  distances : ∀ (id d : Nat), m.distances[id]? = some d → m'.distances[id]? = some d

namespace Extends

theorem refl (m : Machine) : Extends m m := ⟨.refl _, fun _ _ h => h⟩

theorem trans (h : Extends m m') (h' : Extends m' m'') : Extends m m'' :=
  ⟨h.grows.trans h'.grows, fun id d hd => h'.distances id d (h.distances id d hd)⟩

/-- Only the frames and the distances matter. -/
theorem of_eq (hframes : m'.frames = m.frames) (hdistances : m'.distances = m.distances) :
    Extends m m' := by
  constructor
  · rw [hframes]
    exact .refl _
  · intro id d hd
    rw [hdistances]
    exact hd

end Extends

theorem After.extends (h : After V m m') : Extends m m' :=
  ⟨h.grows, fun id d hd => by rw [h.distances]; exact hd⟩

/-! ### The end of a computation -/

namespace Exec

/-- The machine behind a computation, whether or not it succeeded. -/
def endOf {α : Type} : EStateM.Result Interrupt Machine α → Machine
  | .ok _ m => m
  | .error _ m => m

variable {α β : Type} {p : Exec α} {k : α → Exec β}

/-- What follows a computation extends the machine behind it. -/
theorem extends_bind (hk : ∀ a m', p m = .ok a m' → Extends m' (endOf (k a m'))) :
    Extends (endOf (p m)) (endOf ((p >>= k) m)) := by
  cases hp : p m with
  | ok a m' =>
    rw [bind_of_ok hp]
    exact hk a m' hp
  | error e m' =>
    rw [bind_of_error hp]
    exact .refl _

/-- Two computations in a row extend the machine if each of them does. -/
theorem extends_seq (hp : Extends m (endOf (p m)))
    (hk : ∀ a m', p m = .ok a m' → Extends m' (endOf (k a m'))) :
    Extends m (endOf ((p >>= k) m)) :=
  hp.trans (extends_bind hk)

theorem extends_lift (result : Except RuntimeError α) (m : Machine) :
    Extends m (endOf (lift result m)) := by
  cases result with
  | ok a => exact .refl _
  | error e => exact .refl _

theorem extends_inFrame (frame : FrameId) (p : Exec α) (m : Machine) :
    Extends (endOf (p { m with current := frame })) (endOf (inFrame frame p m)) := by
  unfold inFrame
  cases hp : p { m with current := frame } with
  | ok a m' => exact .of_eq rfl rfl
  | error e m' => exact .of_eq rfl rfl

theorem extends_asCall (p : Exec α) (m : Machine) :
    Extends (endOf (p { m with depth := m.depth + 1 })) (endOf (asCall p m)) := by
  unfold asCall
  cases hp : p { m with depth := m.depth + 1 } with
  | ok a m' => exact .of_eq rfl rfl
  | error e m' => exact .of_eq rfl rfl

/-- The checks before a call change nothing. -/
theorem extends_checkCall (rules : Rules) (callee : Value) (count line : Nat) (m : Machine) :
    Extends m (endOf (checkCall rules callee count line m)) := by
  unfold checkCall
  cases callee.arity? with
  | none => exact .refl _
  | some arity =>
    by_cases hcount : count = arity
    · simp only [hcount, ne_eq, not_true_eq_false, if_false]
      refine extends_seq (.refl _) fun found m' _ => ?_
      split
      · exact .refl _
      · exact .refl _
    · simp only [hcount, ne_eq, not_false_eq_true, if_true]
      exact .refl _

theorem extends_callResult (f : Function) (flow : Flow) (line : Nat) (m : Machine) :
    Extends m (endOf (callResult f flow line m)) := by
  unfold callResult
  split
  · exact extends_seq (.refl _) fun _ _ _ => extends_lift _ _
  · exact .refl _

end Exec

theorem Keeps.extends {α : Type} {post : α → Machine → Prop}
    {result : EStateM.Result Interrupt Machine α} (h : Keeps V m post result) :
    Extends m (endOf result) := by
  cases result with
  | ok a m' => exact h.1.extends
  | error e m' => exact h.1.extends

/-! ### The end of a task -/

def Moment.final (rules : Rules) (x : Moment) : Machine :=
  match x.task with
  | .evaluate e => endOf (Exec.evaluate rules x.fuel e x.machine)
  | .evaluateEach es => endOf (Exec.evaluateEach rules x.fuel es x.machine)
  | .call callee arguments line => endOf (Exec.call rules x.fuel callee arguments line x.machine)
  | .callFunction f arguments line =>
    endOf (Exec.callFunction rules x.fuel f arguments line x.machine)
  | .execute s => endOf (Exec.execute rules x.fuel s x.machine)
  | .executeEach ss => endOf (Exec.executeEach rules x.fuel ss x.machine)
  | .iterate condition body increment =>
    endOf (Exec.iterate rules x.fuel condition body increment x.machine)

variable {x y : Moment}

/-- A task extends the machine that it begins in. -/
theorem Moment.Ok.extends_final (h : x.Ok V) : Extends x.machine (x.final rules) := by
  obtain ⟨fuel, task, m⟩ := x
  obtain ⟨hm, htask⟩ := h
  have hsound := soundAt V rules fuel
  cases task with
  | evaluate e =>
    obtain ⟨scopes, hhere, he⟩ := htask
    exact (hsound.evaluate hm hhere he).extends
  | evaluateEach es =>
    obtain ⟨scopes, hhere, hes⟩ := htask
    exact (hsound.evaluateEach hm hhere hes).extends
  | call callee arguments line =>
    obtain ⟨hcallee, hvalues, harity⟩ := htask
    exact (hsound.call hm hcallee hvalues harity).extends
  | callFunction f arguments line =>
    obtain ⟨hf, hvalues, harity⟩ := htask
    exact (hsound.callFunction hm hf hvalues harity).extends
  | execute s =>
    obtain ⟨r, hhere, hs⟩ := htask
    exact (hsound.execute hm hhere hs).extends
  | executeEach ss =>
    obtain ⟨r, hhere, hss⟩ := htask
    exact (hsound.executeEach hm hhere hss).extends
  | iterate condition body increment =>
    obtain ⟨r, hhere, hloop⟩ := htask
    exact (hsound.iterate hm hhere hloop).extends

theorem Led.extends (h : Led V x y) : Extends x.machine y.machine :=
  ⟨h.grows, fun id d hd => by rw [h.distances]; exact hd⟩

/-- What a part of a task does extends the machine that the part begins in. -/
theorem Moment.Ok.extends_part (h : x.Ok V) (hleads : Leads rules x y) :
    Extends y.machine (y.final rules) :=
  (h.leads hleads).extends_final

/-- What a call does behind its arguments. -/
theorem Moment.Ok.extends_behind_arguments {fuel : Nat} {callee : Expr} {paren : Token}
    {arguments : List Expr} {value : Value} {values : List Value} {m₁ m₂ : Machine}
    (h : Moment.Ok V ⟨fuel + 1, .evaluate (.call callee paren arguments), m⟩)
    (hcallee : Exec.evaluate rules fuel callee m = .ok value m₁)
    (harguments : Exec.evaluateEach rules fuel arguments m₁ = .ok values m₂) :
    Extends m₂ (endOf ((checkCall rules value values.length paren.line >>= fun _ =>
      asCall (Exec.call rules fuel value values paren.line)) m₂)) := by
  refine extends_seq (extends_checkCall rules value values.length paren.line m₂) ?_
  intro _ m₃ hcheck
  have hbegin : Extends m₃ { m₃ with depth := m₃.depth + 1 } := .of_eq rfl rfl
  have hcall := h.extends_part (.call hcallee harguments hcheck)
  exact (hbegin.trans hcall).trans (extends_asCall _ m₃)

/-- The turns of a loop behind one that goes on. -/
theorem Moment.Ok.extends_nextTurn {fuel : Nat} {condition : Expr} {body : Stmt}
    {increment : Option Expr} {value : Value} {flow : Flow} {m₁ m₂ : Machine}
    (h : Moment.Ok V ⟨fuel + 1, .iterate condition body increment, m⟩)
    (htest : Exec.evaluate rules fuel condition m = .ok value m₁) (htruthy : value.isTruthy = true)
    (hbody : Exec.execute rules fuel body m₁ = .ok flow m₂)
    (hflow : flow = .normal ∨ flow = .continuing) :
    Extends m₂ (endOf (nextTurn rules fuel condition body increment m₂)) := by
  cases increment with
  | none => exact h.extends_part (.again htest htruthy hbody hflow)
  | some step =>
    refine extends_seq (h.extends_part (.increment htest htruthy hbody hflow)) ?_
    intro result m₃ hstep
    exact h.extends_part (.againAfter htest htruthy hbody hflow hstep)

/-- What a loop does behind its body. -/
theorem Moment.Ok.extends_behind_body {fuel : Nat} {condition : Expr} {body : Stmt}
    {increment : Option Expr} {value : Value} {flow : Flow} {m₁ m₂ : Machine}
    (h : Moment.Ok V ⟨fuel + 1, .iterate condition body increment, m⟩)
    (htest : Exec.evaluate rules fuel condition m = .ok value m₁) (htruthy : value.isTruthy = true)
    (hbody : Exec.execute rules fuel body m₁ = .ok flow m₂) :
    Extends m₂ (Moment.final rules ⟨fuel + 1, .iterate condition body increment, m⟩) := by
  simp only [Moment.final, iterate_of_turn increment htest htruthy hbody]
  cases flow with
  | normal => exact h.extends_nextTurn htest htruthy hbody (.inl rfl)
  | continuing => exact h.extends_nextTurn htest htruthy hbody (.inr rfl)
  | breaking => exact .refl _
  | returning result => exact .refl _

/-- What is done behind a part of a task extends the machine that the part ends in. -/
theorem Moment.Ok.extends_behind (h : x.Ok V) (hleads : Leads rules x y) :
    Extends (y.final rules) (x.final rules) := by
  have hm := h.sound
  have htask := h.task
  -- By the place of the part in its task: first the equation of the task, then what is left of it.
  cases hleads with
  | group => simpa only [Moment.final, Exec.evaluate] using .refl _
  | unary =>
    simp only [Moment.final, Exec.evaluate]
    exact extends_bind fun _ _ _ => extends_lift _ _
  -- The right operand is behind the left one, and the operator does not touch the machine.
  | binaryLeft =>
    simp only [Moment.final, Exec.evaluate]
    refine extends_bind fun _ _ hleft => ?_
    exact extends_seq (h.extends_part (.binaryRight hleft)) fun _ _ _ => extends_lift _ _
  | binaryRight hleft =>
    simp only [Moment.final, Exec.evaluate]
    rw [bind_of_ok hleft]
    exact extends_bind fun _ _ _ => extends_lift _ _
  -- Only where the operator does not decide is there a right operand.
  | @logicalLeft fuel m left operator right =>
    simp only [Moment.final, Exec.evaluate]
    refine extends_bind fun value m₁ hleft => ?_
    cases hdecides : Operator.decides operator value with
    | true => exact .refl _
    | false => exact h.extends_part (.logicalRight hleft hdecides)
  | logicalRight hleft hdecides =>
    simp only [Moment.final, Exec.evaluate]
    rw [bind_of_ok hleft, hdecides]
    exact .refl _
  -- Behind the value the frame of the variable is written to, which extends the machine.
  | @assign fuel m place value =>
    obtain ⟨scopes, hhere, he⟩ := htask
    simp only [Moment.final, Exec.evaluate]
    refine extends_bind fun result m₁ hvalue => ?_
    obtain ⟨hafter, hresult⟩ := hm.evaluated hhere he.assign.1 hvalue
    have hassign := Keeps.assignVariable rules hafter.sound he.assign.2 (hhere.after hafter) hresult
    exact extends_seq hassign.extends fun _ _ _ => .refl _
  -- The arguments, the checks and the call are behind the callee.
  | callee =>
    simp only [Moment.final, Exec.evaluate]
    refine extends_bind fun value m₁ hcallee => ?_
    exact extends_seq (h.extends_part (.arguments hcallee)) fun values m₂ harguments =>
      h.extends_behind_arguments hcallee harguments
  | arguments hcallee =>
    simp only [Moment.final, Exec.evaluate]
    rw [bind_of_ok hcallee]
    exact extends_bind fun values m₂ harguments => h.extends_behind_arguments hcallee harguments
  -- The call is the last step, so only the counter is put back behind it.
  | call hcallee harguments hcheck =>
    simp only [Moment.final, Exec.evaluate]
    rw [bind_of_ok hcallee, bind_of_ok harguments, bind_of_ok hcheck]
    exact extends_asCall _ _
  -- Reading a method makes a new function.
  | @get fuel m object name =>
    obtain ⟨scopes, hhere, he⟩ := htask
    simp only [Moment.final, Exec.evaluate]
    refine extends_bind fun value m₁ hobject => ?_
    obtain ⟨hafter, hvalue⟩ := hm.evaluated hhere he.get hobject
    cases value with
    | object owner => exact (Keeps.getProperty hafter.sound hvalue name).extends
    | _ => exact .refl _
  -- A value that is no instance is an error, with nothing behind it.
  | setObject =>
    simp only [Moment.final, Exec.evaluate]
    refine extends_bind fun value m₁ hobject => ?_
    cases value with
    | object owner =>
      refine extends_seq (h.extends_part (.setValue hobject)) fun result m₂ hvalue => ?_
      exact extends_seq (.of_eq rfl rfl) fun _ _ _ => .refl _
    | _ => exact .refl _
  | setValue hobject =>
    simp only [Moment.final, Exec.evaluate]
    rw [bind_of_ok hobject]
    refine extends_bind fun result m₂ hvalue => ?_
    exact extends_seq (.of_eq rfl rfl) fun _ _ _ => .refl _
  -- Lists are gone through from the front, so the rest is behind the first entry.
  | firstExpr =>
    simp only [Moment.final, Exec.evaluateEach]
    refine extends_bind fun value m₁ he => ?_
    exact extends_seq (h.extends_part (.nextExprs he)) fun _ _ _ => .refl _
  | nextExprs he =>
    simp only [Moment.final, Exec.evaluateEach]
    rw [bind_of_ok he]
    exact extends_bind fun _ _ _ => .refl _
  | function => simpa only [Moment.final, Exec.call] using .refl _
  -- Behind an initializer there is only the instance, which was made in front of it.
  | initializer hinstance hmethod hbind =>
    simp only [Moment.final, Exec.call]
    rw [bind_of_ok hinstance, hmethod]
    simp only
    rw [bind_of_ok hbind]
    exact extends_bind fun _ _ _ => .refl _
  -- Behind the body the frame of the caller is put back and the result is read off.
  | body hbind =>
    simp only [Moment.final, Exec.callFunction]
    rw [bind_of_ok hbind]
    exact (extends_inFrame _ _ _).trans (extends_bind fun _ _ _ => extends_callResult _ _ _ _)
  | expression =>
    simp only [Moment.final, Exec.execute]
    exact extends_bind fun _ _ _ => .refl _
  -- The declaration binds the name in the current frame.
  | @var fuel m name value =>
    obtain ⟨r, hhere, hs⟩ := htask
    simp only [Moment.final, Exec.execute]
    refine extends_bind fun result m₁ hvalue => ?_
    obtain ⟨hafter, hresult⟩ := hm.evaluated (Mirrors.declare hhere hs.shaped) hs.initializer hvalue
    have hdefine := Keeps.define hafter.sound hs.shaped hresult
    exact extends_seq hdefine.extends fun _ _ _ => .refl _
  | block hframe =>
    simp only [Moment.final, Exec.execute]
    rw [bind_of_ok hframe]
    exact extends_inFrame _ _ _
  -- Which branch is behind the condition depends on its value.
  | @condition fuel m condition thenBranch elseBranch =>
    simp only [Moment.final, Exec.execute]
    refine extends_bind fun value m₁ hcondition => ?_
    cases htruthy : value.isTruthy with
    | true => exact h.extends_part (.thenBranch hcondition htruthy)
    | false =>
      cases elseBranch with
      | none => exact .refl _
      | some elseBranch => exact h.extends_part (.elseBranch hcondition htruthy)
  | thenBranch hcondition htruthy =>
    simp only [Moment.final, Exec.execute]
    rw [bind_of_ok hcondition, htruthy]
    exact .refl _
  | elseBranch hcondition htruthy =>
    simp only [Moment.final, Exec.execute]
    rw [bind_of_ok hcondition, htruthy]
    exact .refl _
  | loop => simpa only [Moment.final, Exec.execute] using .refl _
  | returning =>
    simp only [Moment.final, Exec.execute]
    exact extends_bind fun _ _ _ => .refl _
  -- The statements behind are executed only if this one ended normally.
  | firstStmt =>
    simp only [Moment.final, Exec.executeEach]
    refine extends_bind fun flow m₁ hs => ?_
    cases flow with
    | normal => exact h.extends_part (.nextStmts hs)
    | _ => exact .refl _
  | nextStmts hs =>
    simp only [Moment.final, Exec.executeEach]
    rw [bind_of_ok hs]
    exact .refl _
  -- A turn that is taken is behind the test, and what the body ends with is behind the turn.
  | @test fuel m condition body increment =>
    simp only [Moment.final]
    rw [iterate_succ]
    refine extends_bind fun value m₁ htest => ?_
    cases htruthy : value.isTruthy with
    | true =>
      rw [if_pos rfl]
      refine extends_seq (h.extends_part (.turn htest htruthy)) fun flow m₂ hbody => ?_
      have hbehind := h.extends_behind_body htest htruthy hbody
      simp only [Moment.final, iterate_succ, bind_of_ok htest, htruthy, if_true,
        bind_of_ok hbody] at hbehind
      exact hbehind
    | false => exact .refl _
  -- The body may fail, and then nothing is behind it.
  | @turn fuel m condition body increment value m₁ htest htruthy =>
    cases hbody : Exec.execute rules fuel body m₁ with
    | ok flow m₂ =>
      have hbehind := h.extends_behind_body htest htruthy hbody
      simp only [Moment.final, hbody] at hbehind ⊢
      exact hbehind
    | error e m₂ =>
      simp only [Moment.final, iterate_succ, bind_of_ok htest, htruthy, if_true, hbody,
        bind_of_error hbody]
      exact .refl _
  -- Behind the increment the loop starts over.
  | increment htest htruthy hbody hflow =>
    simp only [Moment.final]
    rw [iterate_of_goesOn htest htruthy hbody hflow]
    exact extends_bind fun _ _ hstep =>
      h.extends_part (.againAfter htest htruthy hbody hflow hstep)
  | again htest htruthy hbody hflow =>
    simp only [Moment.final]
    rw [iterate_of_goesOn htest htruthy hbody hflow]
    exact .refl _
  | againAfter htest htruthy hbody hflow hstep =>
    simp only [Moment.final]
    rw [iterate_of_goesOn htest htruthy hbody hflow, nextTurn_of_evaluate hstep]
    exact .refl _

end Lox
