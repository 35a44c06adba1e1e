import Lox.Proofs.Execution.Finals
import Lox.Proofs.Session.Runs

/-!
# What every execution puts back

However an execution ends, by a value, by a signal or by an error from any depth, the
current frame and the number of calls under way are what they were before it, and so are
the distances.  The frames that were there stay where they are.  This needs nothing of
the code and nothing of the machine: code that was never resolved, and machines that no
session leads to, are no exception.  Only two kinds of step change what is put back, and
both of them put it back themselves: running in another frame, and running as a call.
-/

namespace Lox

open Exec

/-- Nothing that belongs to an execution itself is left changed. -/
structure Restored (m m' : Machine) : Prop where
  current : m'.current = m.current
  depth : m'.depth = m.depth
  distances : m'.distances = m.distances
  size_le : m.frames.size ≤ m'.frames.size
  enclosing : ∀ f < m.frames.size, m'.frames.enclosing? f = m.frames.enclosing? f

namespace Restored

variable {m m' m'' : Machine}

theorem refl (m : Machine) : Restored m m := ⟨rfl, rfl, rfl, Nat.le_refl _, fun _ _ => rfl⟩

theorem trans (h : Restored m m') (h' : Restored m' m'') : Restored m m'' where
  current := h'.current.trans h.current
  depth := h'.depth.trans h.depth
  distances := h'.distances.trans h.distances
  size_le := Nat.le_trans h.size_le h'.size_le
  enclosing f hf :=
    (h'.enclosing f (Nat.lt_of_lt_of_le hf h.size_le)).trans (h.enclosing f hf)

end Restored

/-- However the computation ends, it restores what belongs to the execution around it. -/
def Exec.Restores {α : Type} (p : Exec α) : Prop := ∀ m, Restored m (endOf (p m))

/-! ### Steps -/

namespace Exec.Restores

variable {α β : Type} {p : Exec α}

theorem pure (a : α) : Restores (Pure.pure a : Exec α) := .refl

theorem fail (cause : RuntimeCause) (line : Nat) : Restores (Exec.fail cause line : Exec α) := .refl

theorem outOfFuel : Restores (Exec.outOfFuel : Exec α) := .refl

theorem get : Restores (MonadState.get : Exec Machine) := .refl

theorem lift (result : Except RuntimeError α) : Restores (Exec.lift result) := by
  cases result with
  | ok a => exact .refl
  | error e => exact .refl

theorem bind {f : α → Exec β} (hp : Restores p) (hf : ∀ a, Restores (f a)) :
    Restores (p >>= f) := by
  intro m
  have hfirst := hp m
  cases hresult : p m with
  | ok a m' =>
    rw [hresult] at hfirst
    rw [bind_of_ok hresult]
    exact hfirst.trans (hf a m')
  | error e m' =>
    rw [hresult] at hfirst
    rw [bind_of_error hresult]
    exact hfirst

theorem of_ok {m m' : Machine} {a : α} (hp : Restores p) (h : p m = .ok a m') :
    Restored m m' := by
  have hrestored := hp m
  rw [h] at hrestored
  exact hrestored

theorem map {f : α → β} (hp : Restores p) : Restores (f <$> p) := by
  have hbind : f <$> p = p >>= fun a => Pure.pure (f a) := (bind_pure_comp f p).symm
  rw [hbind]
  exact hp.bind fun a => .pure _

/-- A step that changes only values, identities and what was written. -/
theorem modify {f : Machine → Machine} (hf : ∀ m, Restored m (f m)) :
    Restores (modify f : Exec Unit) := hf

/-- Whatever ran in another frame, this one is current again. -/
theorem inFrame (hp : Restores p) (frame : FrameId) : Restores (Exec.inFrame frame p) := by
  intro m
  have hinside := hp { m with current := frame }
  unfold Exec.inFrame
  cases hresult : p { m with current := frame } with
  | ok a m' =>
    rw [hresult] at hinside
    exact { hinside with current := rfl }
  | error e m' =>
    rw [hresult] at hinside
    exact { hinside with current := rfl }

/-- However a call ends, it is no longer under way. -/
theorem asCall (hp : Restores p) : Restores (Exec.asCall p) := by
  intro m
  have hinside := hp { m with depth := m.depth + 1 }
  have hback : ∀ m', Restored { m with depth := m.depth + 1 } m' →
      Restored m { m' with depth := m'.depth - 1 } := by
    intro m' h
    have hdepth : m'.depth - 1 = m.depth := by
      rw [h.depth]
      rfl
    exact { h with depth := hdepth }
  unfold Exec.asCall
  cases hresult : p { m with depth := m.depth + 1 } with
  | ok a m' =>
    rw [hresult] at hinside
    exact hback m' hinside
  | error e m' =>
    rw [hresult] at hinside
    exact hback m' hinside

theorem defineIn (frame : FrameId) (name : String) (value : Value) :
    Restores (Exec.defineIn frame name value) :=
  .modify fun m => ⟨rfl, rfl, rfl, Nat.le_of_eq (Frames.size_define m.frames frame name value).symm,
    fun f _ => Frames.enclosing?_define m.frames frame f name value⟩

theorem define (name : String) (value : Value) : Restores (Exec.define name value) :=
  fun m => Restores.defineIn m.current name value m

theorem newFrame (outer : FrameId) : Restores (Exec.newFrame outer) := fun m =>
  ⟨rfl, rfl, rfl, by simp [endOf, Exec.newFrame, Frames.size_child],
    fun _ hf => Frames.enclosing?_child_of_lt hf⟩

theorem newInnerFrame : Restores Exec.newInnerFrame := fun m => Restores.newFrame m.current m

theorem newIdentity : Restores Exec.newIdentity :=
  fun _ => ⟨rfl, rfl, rfl, Nat.le_refl _, fun _ _ => rfl⟩

theorem newInstance (c : Class) : Restores (Exec.newInstance c) :=
  fun _ => ⟨rfl, rfl, rfl, Nat.le_refl _, fun _ _ => rfl⟩

theorem newFunction (d : FunctionDecl) (closure : FrameId) (isInitializer : Bool) :
    Restores (Exec.newFunction d closure isInitializer) :=
  newIdentity.bind fun _ => .pure _

theorem bindMethod (method : Function) (owner : Instance) : Restores (Exec.bind method owner) :=
  (newFrame _).bind fun _ => (defineIn _ _ _).bind fun _ => newFunction _ _ _

theorem write (text : String) (line : Nat) : Restores (Exec.write text line) := by
  refine get.bind fun m => ?_
  split
  · exact .fail _ _
  · exact .modify fun _ => ⟨rfl, rfl, rfl, Nat.le_refl _, fun _ _ => rfl⟩

theorem readClock (rules : Rules) : Restores (Exec.readClock rules) :=
  fun _ => ⟨rfl, rfl, rfl, Nat.le_refl _, fun _ _ => rfl⟩

/-! ### Variables, properties and classes -/

variable (rules : Rules)

theorem readResolved (place : Occurrence) : Restores (Exec.readResolved place) := by
  refine get.bind fun m => ?_
  split
  · exact .lift _
  · exact .lift _

theorem readVariable (place : Occurrence) : Restores (Exec.readVariable rules place) := by
  unfold Exec.readVariable
  split
  · exact .readResolved place
  · exact get.bind fun m => .lift _

theorem assignVariable (place : Occurrence) (value : Value) :
    Restores (Exec.assignVariable rules place value) :=
  get.bind fun _ => (lift _).bind fun _ => defineIn _ _ _

theorem getProperty (owner : Instance) (name : Token) : Restores (Exec.getProperty owner name) := by
  refine get.bind fun m => ?_
  split
  · exact .pure _
  · split
    · exact (bindMethod _ _).bind fun _ => .pure _
    · exact .fail _ _

theorem setField (owner : Instance) (name : String) (value : Value) :
    Restores (Exec.setField owner name value) :=
  .modify fun _ => ⟨rfl, rfl, rfl, Nat.le_refl _, fun _ _ => rfl⟩

theorem getSuper (place : Occurrence) (method : Token) : Restores (Exec.getSuper place method) := by
  refine get.bind fun m => ?_
  split
  · exact .fail _ _
  · refine (lift _).bind fun parent => (lift _).bind fun owner => ?_
    split
    · split
      · exact (bindMethod _ _).bind fun _ => .pure _
      · exact .fail _ _
    · exact .fail _ _

theorem makeMethods (frame : FrameId) (declarations : List FunctionDecl) :
    Restores (Exec.makeMethods frame declarations) := by
  rw [Exec.makeMethods_eq]
  generalize Bindings.empty = methods
  induction declarations generalizing methods with
  | nil => exact .pure _
  | cons declaration rest ih =>
    rw [Exec.addMethods_cons]
    exact (newFunction _ _ _).bind fun _ => ih _

theorem methodFrame (superclass : Option Class) : Restores (Exec.methodFrame superclass) := by
  cases superclass with
  | some parent => exact newInnerFrame.bind fun _ => (defineIn _ _ _).bind fun _ => .pure _
  | none => exact get.bind fun _ => .pure _

theorem expectClass (value : Value) (line : Nat) : Restores (Exec.expectClass value line) := by
  cases value with
  | «class» parent => exact .pure _
  | _ => exact .fail _ _

theorem superclassOf (superclass : Option Occurrence) :
    Restores (Exec.superclassOf rules superclass) := by
  cases superclass with
  | some place => exact ((readVariable rules place).bind fun _ => expectClass _ _).map
  | none => exact .pure _

theorem declareClass (name : Token) (superclass : Option Occurrence)
    (methods : List FunctionDecl) :
    Restores (Exec.declareClass rules name superclass methods) := by
  rw [declareClass_eq]
  refine (define _ _).bind fun _ => (superclassOf rules superclass).bind fun parent => ?_
  exact (methodFrame parent).bind fun frame => (makeMethods frame methods).bind fun own =>
    newIdentity.bind fun _ => define _ _

/-! ### Calls -/

theorem checkCall (callee : Value) (count line : Nat) :
    Restores (Exec.checkCall rules callee count line) := by
  unfold Exec.checkCall
  cases callee.arity? with
  | none => exact .fail _ _
  | some arity =>
    have hlimit : ∀ m : Machine, Restores
        (if rules.callLimit ≤ m.depth then Exec.fail .stackOverflow line else Pure.pure ()) := by
      intro m
      split
      · exact .fail _ _
      · exact .pure _
    by_cases hcount : count = arity
    · simp only [hcount, ne_eq, not_true_eq_false, if_false]
      exact get.bind hlimit
    · simp only [hcount, ne_eq, not_false_eq_true, if_true]
      exact (fail _ _).bind fun _ => get.bind hlimit

theorem callNative (native : Native) (arguments : List Value) (line : Nat) :
    Restores (Exec.callNative rules native arguments line) := by
  cases native with
  | clock => exact (readClock rules).bind fun _ => .pure _
  | print => exact (write _ _).bind fun _ => (write _ _).bind fun _ => .pure _

theorem defineEach (frame : FrameId) (pairs : List (Token × Value)) :
    Restores (Exec.defineEach frame pairs) := by
  induction pairs with
  | nil => exact .pure _
  | cons pair rest ih => exact (defineIn _ _ _).bind fun _ => ih

theorem bindArguments (function : Function) (arguments : List Value) :
    Restores (Exec.bindArguments function arguments) :=
  (newFrame _).bind fun frame => (defineEach frame _).bind fun _ => .pure _

theorem callResult (function : Function) (flow : Flow) (line : Nat) :
    Restores (Exec.callResult function flow line) := by
  unfold Exec.callResult
  split
  · exact get.bind fun _ => .lift _
  · exact .pure _

end Exec.Restores

/-! ### Whole executions -/

/-- What is said of executions, with a bound on the depth of their recursion. -/
structure RestoresAt (rules : Rules) (fuel : Nat) : Prop where
  evaluate (e : Expr) : Restores (evaluate rules fuel e)
  evaluateEach (es : List Expr) : Restores (evaluateEach rules fuel es)
  call (callee : Value) (arguments : List Value) (line : Nat) :
    Restores (call rules fuel callee arguments line)
  callFunction (function : Function) (arguments : List Value) (line : Nat) :
    Restores (callFunction rules fuel function arguments line)
  execute (s : Stmt) : Restores (execute rules fuel s)
  executeEach (ss : List Stmt) : Restores (executeEach rules fuel ss)
  iterate (condition : Expr) (body : Stmt) (increment : Option Expr) :
    Restores (iterate rules fuel condition body increment)

namespace RestoresAt

variable {rules : Rules} {fuel : Nat}

theorem zero (rules : Rules) : RestoresAt rules 0 where
  evaluate _ := by
    rw [Exec.evaluate]
    exact .outOfFuel
  evaluateEach _ := by
    rw [Exec.evaluateEach]
    exact .outOfFuel
  call _ _ _ := by
    rw [Exec.call]
    exact .outOfFuel
  callFunction _ _ _ := by
    rw [Exec.callFunction]
    exact .outOfFuel
  execute _ := by
    rw [Exec.execute]
    exact .outOfFuel
  executeEach _ := by
    rw [Exec.executeEach]
    exact .outOfFuel
  iterate _ _ _ := by
    rw [Exec.iterate]
    exact .outOfFuel

theorem evaluate_succ (h : RestoresAt rules fuel) (e : Expr) :
    Restores (Exec.evaluate rules (fuel + 1) e) := by
  rw [Exec.evaluate.eq_def]
  cases e with
  | literal value => exact .pure _
  | group inner => exact h.evaluate inner
  | unary operator operand => exact (h.evaluate operand).bind fun _ => .lift _
  | binary left operator right =>
    exact (h.evaluate left).bind fun _ => (h.evaluate right).bind fun _ => .lift _
  | logical left operator right =>
    refine (h.evaluate left).bind fun value => ?_
    split
    · exact .pure _
    · exact h.evaluate right
  | read place => exact .readVariable rules place
  | assign place value =>
    exact (h.evaluate value).bind fun _ => (Restores.assignVariable rules _ _).bind fun _ => .pure _
  | call callee paren arguments =>
    refine (h.evaluate callee).bind fun value => (h.evaluateEach arguments).bind fun values => ?_
    exact (Restores.checkCall rules _ _ _).bind fun _ => (h.call _ _ _).asCall
  | get object name =>
    refine (h.evaluate object).bind fun value => ?_
    split
    · exact .getProperty _ _
    · exact .fail _ _
  | set object name value =>
    refine (h.evaluate object).bind fun owner => ?_
    split
    · exact (h.evaluate value).bind fun _ => (Restores.setField _ _ _).bind fun _ => .pure _
    · exact .fail _ _
  | this place => exact .readResolved place
  | super place method => exact .getSuper place method

theorem evaluateEach_succ (h : RestoresAt rules fuel) (es : List Expr) :
    Restores (Exec.evaluateEach rules (fuel + 1) es) := by
  cases es with
  | nil =>
    rw [Exec.evaluateEach]
    exact .pure _
  | cons e rest =>
    rw [Exec.evaluateEach]
    exact (h.evaluate e).bind fun _ => (h.evaluateEach rest).bind fun _ => .pure _

theorem call_succ (h : RestoresAt rules fuel) (callee : Value) (arguments : List Value)
    (line : Nat) : Restores (Exec.call rules (fuel + 1) callee arguments line) := by
  rw [Exec.call.eq_def]
  cases callee with
  | native native => exact .callNative rules native arguments line
  | function function => exact h.callFunction function arguments line
  | «class» c =>
    refine (Restores.newInstance c).bind fun owner => ?_
    cases c.initializer? with
    | some method =>
      exact (Restores.bindMethod method owner).bind fun initializer =>
        (h.callFunction initializer arguments line).bind fun _ => .pure _
    | none => exact .pure _
  | _ => exact .fail _ _

theorem callFunction_succ (h : RestoresAt rules fuel) (function : Function)
    (arguments : List Value) (line : Nat) :
    Restores (Exec.callFunction rules (fuel + 1) function arguments line) := by
  rw [Exec.callFunction]
  refine (Restores.bindArguments function arguments).bind fun frame => ?_
  exact ((h.executeEach _).inFrame frame).bind fun flow => .callResult function flow line

theorem execute_succ (h : RestoresAt rules fuel) (s : Stmt) :
    Restores (Exec.execute rules (fuel + 1) s) := by
  rw [Exec.execute.eq_def]
  cases s with
  | expression value => exact (h.evaluate value).bind fun _ => .pure _
  | var name value =>
    cases value with
    | none => exact (Restores.define _ _).bind fun _ => .pure _
    | some value =>
      exact (h.evaluate value).bind fun _ => (Restores.define _ _).bind fun _ => .pure _
  | block body =>
    exact Restores.newInnerFrame.bind fun frame => (h.executeEach body).inFrame frame
  | conditional condition thenBranch elseBranch =>
    refine (h.evaluate condition).bind fun value => ?_
    cases elseBranch with
    | none =>
      split
      · exact h.execute thenBranch
      · exact .pure _
    | some elseBranch =>
      split
      · exact h.execute thenBranch
      · exact h.execute elseBranch
  | loop condition body increment => exact h.iterate condition body increment
  | function declaration =>
    exact Restores.get.bind fun m => (Restores.newFunction _ _ _).bind fun _ =>
      (Restores.define _ _).bind fun _ => .pure _
  | returning keyword value =>
    cases value with
    | none => exact .pure _
    | some value => exact (h.evaluate value).bind fun _ => .pure _
  | breaking keyword => exact .pure _
  | continuing keyword => exact .pure _
  | «class» name superclass methods =>
    exact (Restores.declareClass rules name superclass methods).bind fun _ => .pure _

theorem executeEach_succ (h : RestoresAt rules fuel) (ss : List Stmt) :
    Restores (Exec.executeEach rules (fuel + 1) ss) := by
  cases ss with
  | nil =>
    rw [Exec.executeEach]
    exact .pure _
  | cons s rest =>
    rw [Exec.executeEach]
    refine (h.execute s).bind fun flow => ?_
    cases flow with
    | normal => exact h.executeEach rest
    | _ => exact .pure _

theorem nextTurn (h : RestoresAt rules fuel) (condition : Expr) (body : Stmt)
    (increment : Option Expr) : Restores (Exec.nextTurn rules fuel condition body increment) := by
  cases increment with
  | none => exact h.iterate condition body none
  | some step => exact (h.evaluate step).bind fun _ => h.iterate condition body (some step)

theorem iterate_succ (h : RestoresAt rules fuel) (condition : Expr) (body : Stmt)
    (increment : Option Expr) :
    Restores (Exec.iterate rules (fuel + 1) condition body increment) := by
  rw [Exec.iterate_succ]
  refine (h.evaluate condition).bind fun value => ?_
  split
  · refine (h.execute body).bind fun flow => ?_
    cases flow with
    | normal => exact h.nextTurn condition body increment
    | continuing => exact h.nextTurn condition body increment
    | _ => exact .pure _
  · exact .pure _

end RestoresAt

theorem restoresAt (rules : Rules) (fuel : Nat) : RestoresAt rules fuel := by
  induction fuel with
  | zero => exact .zero rules
  | succ fuel ih =>
    exact ⟨ih.evaluate_succ, ih.evaluateEach_succ, ih.call_succ, ih.callFunction_succ,
      ih.execute_succ, ih.executeEach_succ, ih.iterate_succ⟩

/-! ### Whole runs -/

namespace Session

theorem restored_interpret (rules : Rules) (fuel : Nat) (statements : List Stmt) (m : Machine) :
    Restored m (interpret rules fuel statements m).2 := by
  have hinterpret : Restores (Exec.interpret rules fuel statements) :=
    ((restoresAt rules fuel).executeEach statements).bind fun _ => .pure _
  have hend := hinterpret m
  unfold interpret
  cases hresult : Exec.interpret rules fuel statements m with
  | ok a m' =>
    rw [hresult] at hend
    exact hend
  | error e m' =>
    rw [hresult] at hend
    cases e <;> exact hend

/-- A run, whatever its outcome, ends in the frame and at the depth that it began in. -/
theorem restored_run (rules : Rules) (fuel : Nat) (source : String) (session : Session) :
    (session.run rules fuel source).2.machine.current = session.machine.current ∧
      (session.run rules fuel source).2.machine.depth = session.machine.depth := by
  unfold run
  split
  · exact ⟨rfl, rfl⟩
  · rename_i program _ _
    have hrestored := restored_interpret rules fuel program.statements
      (session.machine.learn program.distances)
    exact ⟨hrestored.current, hrestored.depth⟩

theorem restored_runEach (rules : Rules) (fuel : Nat) (sources : List String) (session : Session) :
    (runEach rules fuel sources session).2.machine.current = session.machine.current ∧
      (runEach rules fuel sources session).2.machine.depth = session.machine.depth := by
  induction sources generalizing session with
  | nil => exact ⟨rfl, rfl⟩
  | cons source rest ih =>
    obtain ⟨hcurrent, hdepth⟩ := restored_run rules fuel source session
    obtain ⟨hcurrent', hdepth'⟩ := ih (session.run rules fuel source).2
    exact ⟨hcurrent'.trans hcurrent, hdepth'.trans hdepth⟩

end Session

/--
Every execution puts back what belongs to the execution around it.  This is true of all
code and of every machine, and of all ends that an expression, a statement or a body in
a frame of its own can come to: values, signals, errors from any depth, and a recursion
that is too deep.  So behind every run of a source, whatever its outcome, the session is
where it was, and a session that ran any sources from its start on is in the global frame
with no call under way.
-/
theorem Exec.state_restored (rules : Rules) (fuel : Nat) :
    (∀ (e : Expr) (m : Machine), Restored m (endOf (evaluate rules fuel e m))) ∧
    (∀ (s : Stmt) (m : Machine), Restored m (endOf (execute rules fuel s m))) ∧
    (∀ (frame : FrameId) (body : List Stmt) (m : Machine),
      Restored m (endOf (inFrame frame (executeEach rules fuel body) m))) ∧
    (∀ (source : String) (session : Session),
      (session.run rules fuel source).2.machine.current = session.machine.current ∧
      (session.run rules fuel source).2.machine.depth = session.machine.depth) ∧
    ∀ (sources : List String) (sink : Sink),
      (Session.runEach rules fuel sources (.initial sink)).2.machine.current =
        Frames.globalFrame ∧
      (Session.runEach rules fuel sources (.initial sink)).2.machine.depth = 0 :=
  ⟨(restoresAt rules fuel).evaluate, (restoresAt rules fuel).execute,
    fun frame body => ((restoresAt rules fuel).executeEach body).inFrame frame,
    Session.restored_run rules fuel,
    fun sources sink => Session.restored_runEach rules fuel sources (.initial sink)⟩

end Lox
