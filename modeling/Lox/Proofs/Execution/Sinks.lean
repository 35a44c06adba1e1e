import Lox.Proofs.Execution.Failures

/-!
# Steps that do not look at the sink

Only a write looks at the sink, and only a write changes it.  Every other step does the
same whatever the sink is: it yields the same value or stops for the same reason, and the
machines that it leaves behind differ in nothing but their sinks.
-/

namespace Lox

open Exec

def Machine.withSink (sink : Sink) (m : Machine) : Machine := { m with sink := sink }

def Exec.mapMachine {α : Type} (f : Machine → Machine) :
    EStateM.Result Interrupt Machine α → EStateM.Result Interrupt Machine α
  | .ok a m => .ok a (f m)
  | .error e m => .error e (f m)

/-- The step does the same with every sink. -/
def Exec.IgnoresSink {α : Type} (p : Exec α) : Prop :=
  ∀ sink m, p (m.withSink sink) = mapMachine (Machine.withSink sink) (p m)

namespace Exec.IgnoresSink

variable {α β : Type} {p : Exec α}

/-- Such a step leaves the sink as it is. -/
theorem sink_eq (h : IgnoresSink p) (m : Machine) : (endOf (p m)).sink = m.sink := by
  have hsame := h m.sink m
  change p m = _ at hsame
  rw [hsame]
  cases p m <;> rfl

/-! ### How computations are put together -/

theorem pure (a : α) : IgnoresSink (Pure.pure a : Exec α) := fun _ _ => rfl

theorem fail (cause : RuntimeCause) (line : Nat) :
    IgnoresSink (Exec.fail cause line : Exec α) :=
  fun _ _ => rfl

theorem outOfFuel : IgnoresSink (Exec.outOfFuel : Exec α) := fun _ _ => rfl

theorem lift (result : Except RuntimeError α) : IgnoresSink (Exec.lift result) := by
  intro sink m
  cases result with
  | ok a => rfl
  | error e => rfl

theorem bind {k : α → Exec β} (hp : IgnoresSink p) (hk : ∀ a, IgnoresSink (k a)) :
    IgnoresSink (p >>= k) := by
  intro sink m
  have hfirst := hp sink m
  cases hrun : p m with
  | ok a m' =>
    rw [hrun] at hfirst
    rw [bind_of_ok hrun, bind_of_ok hfirst]
    exact hk a sink m'
  | error e m' =>
    rw [hrun] at hfirst
    rw [bind_of_error hrun, bind_of_error hfirst]
    rfl

theorem map {f : α → β} (hp : IgnoresSink p) : IgnoresSink (f <$> p) := by
  have hbind : f <$> p = p >>= fun a => Pure.pure (f a) := (bind_pure_comp f p).symm
  rw [hbind]
  exact hp.bind fun a => .pure _

/-- What is read off the machine may be anything but the sink. -/
theorem get_bind {k : Machine → Exec β} (hk : ∀ m, IgnoresSink (k m))
    (hsame : ∀ sink m, k (m.withSink sink) = k m) :
    IgnoresSink ((MonadState.get : Exec Machine) >>= k) := by
  intro sink m
  have hget : ∀ m, (MonadState.get : Exec Machine) m = .ok m m := fun _ => rfl
  rw [bind_of_ok (hget _), bind_of_ok (hget _), hsame]
  exact hk m sink m

/-! ### Steps of the machine -/

theorem defineIn (frame : FrameId) (name : String) (value : Value) :
    IgnoresSink (Exec.defineIn frame name value) :=
  fun _ _ => rfl

theorem define (name : String) (value : Value) : IgnoresSink (Exec.define name value) :=
  fun _ _ => rfl

theorem newFrame (outer : FrameId) : IgnoresSink (Exec.newFrame outer) := fun _ _ => rfl

theorem newInnerFrame : IgnoresSink Exec.newInnerFrame := fun _ _ => rfl

theorem newIdentity : IgnoresSink Exec.newIdentity := fun _ _ => rfl

theorem newInstance (c : Class) : IgnoresSink (Exec.newInstance c) := fun _ _ => rfl

theorem newFunction (d : FunctionDecl) (closure : FrameId) (isInitializer : Bool) :
    IgnoresSink (Exec.newFunction d closure isInitializer) :=
  fun _ _ => rfl

theorem bindMethod (method : Function) (owner : Instance) :
    IgnoresSink (Exec.bind method owner) :=
  fun _ _ => rfl

theorem readClock (rules : Rules) : IgnoresSink (Exec.readClock rules) := fun _ _ => rfl

theorem setField (owner : Instance) (name : String) (value : Value) :
    IgnoresSink (Exec.setField owner name value) :=
  fun _ _ => rfl

/-! ### Variables, properties and classes -/

variable (rules : Rules)

theorem readResolved (place : Occurrence) : IgnoresSink (Exec.readResolved place) := by
  refine .get_bind (fun m => ?_) fun _ _ => rfl
  split
  · exact .lift _
  · exact .lift _

theorem readVariable (place : Occurrence) : IgnoresSink (Exec.readVariable rules place) := by
  unfold Exec.readVariable
  split
  · exact .readResolved place
  · exact .get_bind (fun m => .lift _) fun _ _ => rfl

theorem assignVariable (place : Occurrence) (value : Value) :
    IgnoresSink (Exec.assignVariable rules place value) :=
  .get_bind (fun _ => (lift _).bind fun _ => defineIn _ _ _) fun _ _ => rfl

theorem getProperty (owner : Instance) (name : Token) :
    IgnoresSink (Exec.getProperty owner name) := by
  refine .get_bind (fun m => ?_) fun _ _ => rfl
  split
  · exact .pure _
  · split
    · exact (bindMethod _ _).bind fun _ => .pure _
    · exact .fail _ _

theorem getSuper (place : Occurrence) (method : Token) :
    IgnoresSink (Exec.getSuper place method) := by
  refine .get_bind (fun m => ?_) fun _ _ => rfl
  split
  · exact .fail _ _
  · refine (lift _).bind fun parent => (lift _).bind fun owner => ?_
    split
    · split
      · exact (bindMethod _ _).bind fun _ => .pure _
      · exact .fail _ _
    · exact .fail _ _

theorem makeMethods (frame : FrameId) (declarations : List FunctionDecl) :
    IgnoresSink (Exec.makeMethods frame declarations) := by
  rw [Exec.makeMethods_eq]
  generalize Bindings.empty = methods
  induction declarations generalizing methods with
  | nil => exact .pure _
  | cons declaration rest ih =>
    rw [Exec.addMethods_cons]
    exact (newFunction _ _ _).bind fun _ => ih _

theorem methodFrame (superclass : Option Class) : IgnoresSink (Exec.methodFrame superclass) := by
  cases superclass with
  | some parent => exact newInnerFrame.bind fun _ => (defineIn _ _ _).bind fun _ => .pure _
  | none => exact .get_bind (fun _ => .pure _) fun _ _ => rfl

theorem expectClass (value : Value) (line : Nat) : IgnoresSink (Exec.expectClass value line) := by
  cases value with
  | «class» parent => exact .pure _
  | _ => exact .fail _ _

theorem superclassOf (superclass : Option Occurrence) :
    IgnoresSink (Exec.superclassOf rules superclass) := by
  cases superclass with
  | some place => exact ((readVariable rules place).bind fun _ => expectClass _ _).map
  | none => exact .pure _

theorem declareClass (name : Token) (superclass : Option Occurrence)
    (methods : List FunctionDecl) :
    IgnoresSink (Exec.declareClass rules name superclass methods) := by
  rw [declareClass_eq]
  refine (define _ _).bind fun _ => (superclassOf rules superclass).bind fun parent => ?_
  exact (methodFrame parent).bind fun frame => (makeMethods frame methods).bind fun own =>
    newIdentity.bind fun _ => define _ _

/-! ### Calls -/

theorem checkCall (callee : Value) (count line : Nat) :
    IgnoresSink (Exec.checkCall rules callee count line) := by
  intro sink m
  rw [checkCall_eq, checkCall_eq]
  split
  · rfl
  · split
    · rfl
    · change (if rules.callLimit ≤ m.depth then _ else _) = _
      split <;> rfl

theorem bindArguments (function : Function) (arguments : List Value) :
    IgnoresSink (Exec.bindArguments function arguments) := by
  refine (newFrame _).bind fun frame => IgnoresSink.bind ?_ fun _ => .pure _
  induction function.declaration.parameters.zip arguments with
  | nil => exact .pure _
  | cons pair rest ih =>
    exact (defineIn _ _ _).bind fun _ => ih

theorem callResult (function : Function) (flow : Flow) (line : Nat) :
    IgnoresSink (Exec.callResult function flow line) := by
  unfold Exec.callResult
  split
  · exact .get_bind (fun _ => .lift _) fun _ _ => rfl
  · exact .pure _

end Exec.IgnoresSink

end Lox
