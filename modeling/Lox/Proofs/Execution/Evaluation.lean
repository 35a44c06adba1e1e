import Lox.Evaluator
import Lox.Proofs.Execution.Classes
import Lox.Proofs.Execution.Similar

/-!
# Evaluation keeps machines sound

Code that was resolved without errors is run where the frames mirror the scopes that
it was resolved in.  Behind it they mirror the scopes behind it.  This is shown for
all functions of the evaluator together, by induction on the bound of the recursion:
`SoundAt` says it for one bound, and each function is taken one step further.
-/

namespace Lox

open Resolution Exec

variable {V : Visit → Prop} {rules : Rules} {fuel : Nat} {m : Machine} {r : Resolution}
  {scopes : List Scope}

/-! ### What is shown -/

/--
A flow leaves a loop only inside of a loop, and a routine only inside of a routine; an
initializer is left without a value.
-/
def FlowOk (V : Visit → Prop) (r r' : Resolution) (flow : Flow) (m : Machine) : Prop :=
  match flow with
  | .normal => Here m r'.scopes
  | .breaking | .continuing => r.loopDepth ≠ 0
  | .returning value =>
    r.routine ≠ .topLevel ∧ ValueOk V m.frames value ∧ (r.routine = .initializer → value = .nil)

/-- All functions of the evaluator keep machines sound, with this bound of the recursion. -/
structure SoundAt (V : Visit → Prop) (rules : Rules) (fuel : Nat) : Prop where
  evaluate : ∀ {m : Machine} {scopes : List Scope} {e : Expr}, Sound V m → Here m scopes →
    ExprOk V scopes e → Keeps V m (Keeps.Yields V) (evaluate rules fuel e m)
  evaluateEach : ∀ {m : Machine} {scopes : List Scope} {es : List Expr}, Sound V m →
    Here m scopes → ExprEachOk V scopes es →
    Keeps V m (fun values m' => ValuesOk V m'.frames values) (evaluateEach rules fuel es m)
  call : ∀ {m : Machine} {callee : Value} {arguments : List Value} {line : Nat}, Sound V m →
    ValueOk V m.frames callee → ValuesOk V m.frames arguments →
    callee.arity? = some arguments.length →
    Keeps V m (Keeps.Yields V) (call rules fuel callee arguments line m)
  callFunction : ∀ {m : Machine} {f : Function} {arguments : List Value} {line : Nat},
    Sound V m → FunctionOk V m.frames f → ValuesOk V m.frames arguments → f.arity = arguments.length →
    Keeps V m (Keeps.Yields V) (callFunction rules fuel f arguments line m)
  execute : ∀ {m : Machine} {r : Resolution} {s : Stmt}, Sound V m → Here m r.scopes →
    StmtOk V r s → Keeps V m (FlowOk V r (s.resolve r)) (execute rules fuel s m)
  executeEach : ∀ {m : Machine} {r : Resolution} {ss : List Stmt}, Sound V m →
    Here m r.scopes → StmtEachOk V r ss →
    Keeps V m (FlowOk V r (Stmt.resolveEach ss r)) (executeEach rules fuel ss m)
  iterate : ∀ {m : Machine} {r : Resolution} {condition : Expr} {body : Stmt}
    {increment : Option Expr}, Sound V m → Here m r.scopes → LoopOk V r condition body increment →
    Keeps V m (FlowOk V r r) (iterate rules fuel condition body increment m)

/-! ### Operators -/

/-- Operators yield values without functions in them, and raise harmless errors only. -/
def Operator.Plain (result : Except RuntimeError Value) : Prop :=
  match result with
  | .ok value => ∀ V frames, ValueOk V frames value
  | .error error => error.cause.Harmless

theorem Value.Plain.ok {value : Value} (h : value.Plain) (V : Visit → Prop)
    (frames : Frames Value) : ValueOk V frames value := by
  cases value with
  | nil | bool | number | string => trivial
  | _ => cases h

theorem RuntimeCause.OfOperator.harmless {cause : RuntimeCause} (h : cause.OfOperator) :
    cause.Harmless := by
  cases cause with
  | unresolvedBinding | superUnavailable => cases h
  | _ => trivial

theorem Operator.Same.plain_result {n n' : Nat} {result result' : Except RuntimeError Value}
    (h : Operator.Same n n' result result') : Operator.Plain result := by
  cases h with
  | ok hplain => exact hplain.ok
  | error hcause => exact hcause.harmless

/-! ### Expressions -/

theorem Keeps.liftPlain (h : Sound V m) {result : Except RuntimeError Value}
    (hplain : Operator.Plain result) : Keeps V m (Keeps.Yields V) (Exec.lift result m) := by
  cases result with
  | ok value => exact ⟨h.after, hplain V m.frames⟩
  | error error => exact ⟨h.after, hplain⟩

/-- Behind the checks, the number of arguments is the right one. -/
theorem Keeps.checkCall (h : Sound V m) (callee : Value) (count line : Nat) :
    Keeps V m (fun _ _ => callee.arity? = some count)
      (Exec.checkCall rules callee count line m) := by
  unfold Exec.checkCall
  cases harity : callee.arity? with
  | none => exact fail h (by trivial) _
  | some arity =>
    by_cases hcount : count = arity
    · simp only [hcount, ne_eq, not_true_eq_false, if_false]
      apply bind (get h)
      rintro found m' - ⟨rfl, rfl⟩
      split
      · exact fail h (by trivial) _
      · exact pure h trivial
    · simp only [hcount, ne_eq, not_false_eq_true, if_true]
      exact fail h (by trivial) _

theorem SoundAt.evaluate_succ (h : SoundAt V rules fuel) {e : Expr} (hm : Sound V m)
    (hhere : Here m scopes) (he : ExprOk V scopes e) :
    Keeps V m (Keeps.Yields V) (Exec.evaluate rules (fuel + 1) e m) := by
  cases e with
  | literal value =>
    simp only [Exec.evaluate]
    apply Keeps.pure hm
    -- A literal has no code in it.
    cases value <;> trivial
  | group inner => exact h.evaluate hm hhere he
  | unary operator operand =>
    simp only [Exec.evaluate]
    apply Keeps.bind (h.evaluate hm hhere he.unary)
    intro value m₁ hafter _
    -- Operators yield plain values, so nothing is known of the machine they come from.
    exact Keeps.liftPlain hafter.sound (Operator.same_unary_self operator value).plain_result
  | binary left operator right =>
    simp only [Exec.evaluate]
    obtain ⟨hleft, hright⟩ := he.binary
    apply Keeps.bind (h.evaluate hm hhere hleft)
    intro leftValue m₁ hafter₁ _
    -- The first operand has left the frame at hand and its scopes as they were.
    apply Keeps.bind (h.evaluate hafter₁.sound (hhere.after hafter₁) hright)
    intro rightValue m₂ hafter₂ _
    have hsame := Operator.same_binary_self operator leftValue rightValue
    exact Keeps.liftPlain hafter₂.sound hsame.plain_result
  | logical left operator right =>
    simp only [Exec.evaluate]
    obtain ⟨hleft, hright⟩ := he.logical
    apply Keeps.bind (h.evaluate hm hhere hleft)
    intro leftValue m₁ hafter hvalue
    -- Either the left value is the result, or the right operand is evaluated behind it.
    split
    · exact Keeps.pure hafter.sound hvalue
    · exact h.evaluate hafter.sound (hhere.after hafter) hright
  | read place => exact Keeps.readVariable rules hm he.read hhere
  | assign place value =>
    simp only [Exec.evaluate]
    obtain ⟨hvalue, hplace⟩ := he.assign
    apply Keeps.bind (h.evaluate hm hhere hvalue)
    intro result m₁ hafter₁ hresult
    -- Assigning needs that the scopes still match, and yields the value that was assigned.
    apply Keeps.bind (Keeps.assignVariable rules hafter₁.sound hplace (hhere.after hafter₁) hresult)
    intro _ m₂ hafter₂ _
    exact Keeps.pure hafter₂.sound (hresult.grow hafter₂.grows)
  | call callee paren arguments =>
    simp only [Exec.evaluate]
    obtain ⟨hcallee, harguments⟩ := he.call
    apply Keeps.bind (h.evaluate hm hhere hcallee)
    intro target m₁ hafter₁ htarget
    apply Keeps.bind (h.evaluateEach hafter₁.sound (hhere.after hafter₁) harguments)
    intro values m₂ hafter₂ hvalues
    -- The checks before a call yield that the number of arguments is right.
    apply Keeps.bind (Keeps.checkCall hafter₂.sound target values.length paren.line)
    intro _ m₃ hafter₃ harity
    refine Keeps.asCall ?_ fun _ _ _ hpost => hpost
    refine h.call (hafter₃.sound.of_eq rfl rfl rfl) ?_ ?_ harity
    · -- What callee and arguments stand for has stayed sound while the frames have grown.
      exact htarget.grow (hafter₂.grows.trans hafter₃.grows)
    · exact hvalues.grow hafter₃.grows
  | get object name =>
    simp only [Exec.evaluate]
    apply Keeps.bind (h.evaluate hm hhere he.get)
    intro value m₁ hafter hvalue
    -- Only instances have properties; anything else is a harmless error.
    cases value with
    | object owner => exact Keeps.getProperty hafter.sound hvalue name
    | _ => exact Keeps.fail hafter.sound (by trivial) _
  | set object name value =>
    simp only [Exec.evaluate]
    obtain ⟨hobject, hvalue⟩ := he.set
    apply Keeps.bind (h.evaluate hm hhere hobject)
    intro owner m₁ hafter₁ howner
    cases owner with
    | object owner =>
      apply Keeps.bind (h.evaluate hafter₁.sound (hhere.after hafter₁) hvalue)
      intro result m₂ hafter₂ hresult
      apply Keeps.bind (Keeps.setField hafter₂.sound owner name.lexeme hresult)
      intro _ m₃ hafter₃ _
      exact Keeps.pure hafter₃.sound (hresult.grow hafter₃.grows)
    | _ => exact Keeps.fail hafter₁.sound (by trivial) _
  | this place => exact Keeps.readThis hm he.this hhere
  | super place method => exact Keeps.getSuper hm he.super hhere method

theorem SoundAt.evaluateEach_succ (h : SoundAt V rules fuel) {es : List Expr} (hm : Sound V m)
    (hhere : Here m scopes) (hes : ExprEachOk V scopes es) :
    Keeps V m (fun values m' => ValuesOk V m'.frames values)
      (Exec.evaluateEach rules (fuel + 1) es m) := by
  cases es with
  | nil => exact Keeps.pure hm fun _ hvalue => absurd hvalue List.not_mem_nil
  | cons e rest =>
    simp only [Exec.evaluateEach]
    obtain ⟨he, hrest⟩ := hes.cons
    apply Keeps.bind (h.evaluate hm hhere he)
    intro value m₁ hafter₁ hvalue
    apply Keeps.bind (h.evaluateEach hafter₁.sound (hhere.after hafter₁) hrest)
    intro values m₂ hafter₂ hvalues
    apply Keeps.pure hafter₂.sound
    intro other hother
    rcases List.mem_cons.mp hother with rfl | hother
    · exact hvalue.grow hafter₂.grows
    · exact hvalues other hother

/-! ### Calls -/

/-- Binds names in a frame, each to the value beside it. -/
def Exec.defineEach (frame : FrameId) (pairs : List (Token × Value)) : Exec Unit :=
  pairs.forM fun (name, value) => defineIn frame name.lexeme value

theorem Exec.bindArguments_eq (f : Function) (arguments : List Value) :
    bindArguments f arguments = newFrame f.closure >>= fun frame =>
      defineEach frame (f.declaration.parameters.zip arguments) >>= fun _ => Pure.pure frame := rfl

/-- Parameters that are bound to arguments can be read. -/
theorem Keeps.bindParameters {frame : Nat} {parameters : List Token} {arguments : List Value}
    (h : Sound V m) (hmirrors : Mirrors m.frames r.scopes frame)
    (hnames : ∀ t ∈ parameters, IsName t.lexeme) (hvalues : ValuesOk V m.frames arguments)
    (hlength : parameters.length = arguments.length) :
    Keeps V m (fun _ m' => Mirrors m'.frames (r.declareParameters parameters).scopes frame)
      (Exec.defineEach frame (parameters.zip arguments) m) := by
  induction parameters generalizing arguments m r with
  | nil => exact ⟨h.after, hmirrors⟩
  | cons parameter parameters ih =>
    cases arguments with
    | nil => cases hlength
    | cons argument arguments =>
      have hname := hnames parameter List.mem_cons_self
      apply Keeps.bind (defineIn h (.inl hname) (hvalues argument List.mem_cons_self))
      intro _ m₁ hafter hframes
      have hvalues' : ValuesOk V m.frames arguments :=
        fun value hvalue => hvalues value (List.mem_cons_of_mem _ hvalue)
      refine ih hafter.sound ?_ (fun t ht => hnames t (List.mem_cons_of_mem _ ht))
        (hvalues'.grow hafter.grows) (Nat.succ.inj hlength)
      rw [hframes, scopes_define_declare (SameScopes.refl (r.declare parameter))]
      exact hmirrors.define h.global hname argument

/-- The body of a function runs in a new frame within the closure. -/
theorem Keeps.bindArguments {f : Function} {routine : EnclosingRoutine}
    {arguments : List Value} (h : Sound V m) (hroutine : RoutineOk V routine f.declaration r)
    (hmirrors : Mirrors m.frames r.scopes f.closure) (hvalues : ValuesOk V m.frames arguments)
    (harity : f.arity = arguments.length) :
    Keeps V m (fun frame m' =>
        Mirrors m'.frames (r.enterRoutine routine f.declaration.parameters).scopes frame ∧
          m'.frames.enclosing? frame = some f.closure)
      (Exec.bindArguments f arguments m) := by
  rw [Exec.bindArguments_eq]
  apply bind (newFrame h f.closure)
  rintro frame m₁ hafter₁ ⟨rfl, hframes₁⟩
  have hopen : Mirrors m₁.frames
      ({ r with routine := routine, loopDepth := 0 } : Resolution).openScope.scopes
      m.frames.next := by
    rw [hframes₁]
    exact hmirrors.child h.global
  have houter := Frames.enclosing?_child_next (hmirrors.lt h.global)
  rw [← hframes₁] at houter
  apply bind (bindParameters hafter₁.sound hopen hroutine.isName (hvalues.grow hafter₁.grows) harity)
  intro _ m₂ hafter₂ hbound
  exact pure hafter₂.sound ⟨hbound, hafter₂.grows.enclosing _ _ houter⟩

/-- An initializer finds its instance. -/
theorem Keeps.callResult {f : Function} {flow : Flow} (h : Sound V m)
    (hf : FunctionOk V m.frames f) (hflow : ValueOk V m.frames flow.result) (line : Nat) :
    Keeps V m (Yields V) (Exec.callResult f flow line m) := by
  unfold Exec.callResult
  cases hinitializer : f.isInitializer with
  | true =>
    obtain ⟨owner, howner⟩ := hf.initializer hinitializer
    apply bind (get h)
    rintro found m' - ⟨rfl, rfl⟩
    rw [Frames.getAt_of_found rfl howner]
    exact ⟨h.after, h.bound f.closure "this" _ howner⟩
  | false => exact pure h hflow

/-- What a routine returns is as it should be. -/
theorem FlowOk.result {r' : Resolution} {flow : Flow} (h : FlowOk V r r' flow m) :
    ValueOk V m.frames flow.result := by
  cases flow with
  | returning value => exact h.2.1
  | _ => trivial

theorem SoundAt.callFunction_succ (h : SoundAt V rules fuel) {f : Function}
    {arguments : List Value} {line : Nat} (hm : Sound V m) (hf : FunctionOk V m.frames f)
    (hvalues : ValuesOk V m.frames arguments) (harity : f.arity = arguments.length) :
    Keeps V m (Keeps.Yields V) (Exec.callFunction rules (fuel + 1) f arguments line m) := by
  obtain ⟨routine, r, hroutine, hmirrors, -⟩ := hf.routine
  simp only [Exec.callFunction]
  apply Keeps.bind (Keeps.bindArguments hm hroutine hmirrors hvalues harity)
  rintro frame m₁ hafter₁ ⟨hbound, -⟩
  have hinner : Sound V { m₁ with current := frame } := hafter₁.sound.of_eq rfl rfl rfl
  have hbody : Keeps V m₁ (fun flow m' => ValueOk V m'.frames flow.result)
      (Exec.inFrame frame (Exec.executeEach rules fuel f.declaration.body) m₁) :=
    Keeps.inFrame (h.executeEach hinner hbound hroutine.body) fun _ _ _ hflow => hflow.result
  apply Keeps.bind hbody
  intro flow m₂ hafter₂ hresult
  have hgrows := hafter₁.grows.trans hafter₂.grows
  exact Keeps.callResult hafter₂.sound (hf.mono (fun _ hv => hv) hgrows) hresult line

theorem Class.arity_of_initializer {c : Class} {method : Function}
    (h : c.initializer? = some method) : c.arity = method.arity := by
  simp [Class.arity, h]

theorem Keeps.callNative (h : Sound V m) (native : Native) (arguments : List Value)
    (line : Nat) :
    Keeps V m (Yields V) (Exec.callNative rules native arguments line m) := by
  unfold Exec.callNative
  cases native with
  | clock =>
    apply bind (readClock h rules)
    intro _ m₁ hafter _
    exact pure hafter.sound trivial
  | print =>
    apply bind (write h _ line)
    intro _ m₁ hafter₁ _
    apply bind (write hafter₁.sound _ line)
    intro _ m₂ hafter₂ _
    exact pure hafter₂.sound trivial

theorem SoundAt.call_succ (h : SoundAt V rules fuel) {callee : Value} {arguments : List Value}
    {line : Nat} (hm : Sound V m) (hcallee : ValueOk V m.frames callee)
    (hvalues : ValuesOk V m.frames arguments) (harity : callee.arity? = some arguments.length) :
    Keeps V m (Keeps.Yields V) (Exec.call rules (fuel + 1) callee arguments line m) := by
  cases callee with
  | native native => exact Keeps.callNative hm native arguments line
  | function f => exact h.callFunction hm hcallee hvalues (Option.some.inj harity)
  | «class» c =>
    simp only [Exec.call]
    apply Keeps.bind (Keeps.newInstance hm c)
    rintro owner m₁ hafter₁ ⟨rfl, -⟩
    have hclass : ClassOk V m₁.frames owner.cls := ClassOk.grow hafter₁.grows hcallee
    cases hinitializer : owner.cls.initializer? with
    | none => exact Keeps.pure hafter₁.sound hclass
    | some method =>
      apply Keeps.bind (Keeps.bindMethod hafter₁.sound (hclass.findMethod? hinitializer) hclass)
      rintro f m₂ hafter₂ ⟨hf, hdeclaration⟩
      have hlength : f.arity = arguments.length := by
        have harity' : owner.cls.arity = arguments.length := Option.some.inj harity
        rw [← harity', Class.arity_of_initializer hinitializer, Function.arity, hdeclaration]
        rfl
      have hvalues₂ := hvalues.grow (hafter₁.grows.trans hafter₂.grows)
      apply Keeps.bind (h.callFunction hafter₂.sound hf hvalues₂ hlength)
      intro _ m₃ hafter₃ _
      exact Keeps.pure hafter₃.sound (hclass.grow (hafter₂.grows.trans hafter₃.grows))
  | _ => cases harity

/-! ### Statements -/

/-- A flow other than the normal one says the same in other surroundings that look alike. -/
theorem FlowOk.leave {r' r₂ r₂' : Resolution} {flow : Flow} (h : FlowOk V r r' flow m)
    (hloop : r₂.loopDepth = r.loopDepth) (hroutine : r₂.routine = r.routine)
    (hnormal : flow = .normal → Here m r₂'.scopes) : FlowOk V r₂ r₂' flow m := by
  cases flow with
  | normal => exact hnormal rfl
  | breaking =>
    intro hzero
    exact h (hloop ▸ hzero)
  | continuing =>
    intro hzero
    exact h (hloop ▸ hzero)
  | returning value =>
    rw [FlowOk, hroutine]
    exact h

/-- A branch ends as the statement it is a branch of. -/
theorem SoundAt.branch (h : SoundAt V rules fuel) {s branch : Stmt} {r' : Resolution}
    (hm : Sound V m) (hhere : Here m r.scopes) (hs : StmtOk V r s) (hnone : s.declared? = none)
    (hbranch : StmtOk V r' branch) (hsame : SameOuter r r')
    (hscopes : r'.scopes = r.scopes) :
    Keeps V m (FlowOk V r (s.resolve r)) (Exec.execute rules fuel branch m) := by
  have hhere' : Here m r'.scopes := hscopes ▸ hhere
  apply Keeps.weaken (h.execute hm hhere' hbranch)
  intro flow m' hafter hflow
  apply hflow.leave hsame.loopDepth.symm hsame.routine.symm
  intro _
  rw [Stmt.scopes_of_declares_nothing hs.shaped hnone]
  exact hhere.after hafter

/-- A function is bound in the frame that it sees, so that it sees itself. -/
theorem Sound.defineFunction (h : Sound V m) (hhere : Here m r.scopes) {d : FunctionDecl}
    (hs : StmtOk V r (.function d)) {f : Function} (hdeclaration : f.declaration = d)
    (hclosure : f.closure = m.current) (hplain : f.isInitializer = false) :
    After V m { m with frames := m.frames.define m.current d.name.lexeme (.function f) } := by
  obtain ⟨hname, hroutine⟩ := hs.function
  apply h.define (.inl hname)
  have hmirrors := Mirrors.define hhere h.global hname (.function f)
  rw [hdeclaration.symm] at hroutine
  refine ⟨⟨.function, _, hroutine, ?_, fun hinit => ?_⟩, fun hinit => ?_⟩
  · rw [scopes_define_declare (SameScopes.refl _), hclosure, hdeclaration]
    exact hmirrors
  · rw [hplain] at hinit
    cases hinit
  · rw [hplain] at hinit
    cases hinit

theorem SoundAt.execute_succ (h : SoundAt V rules fuel) {s : Stmt} (hm : Sound V m)
    (hhere : Here m r.scopes) (hs : StmtOk V r s) :
    Keeps V m (FlowOk V r (s.resolve r)) (Exec.execute rules (fuel + 1) s m) := by
  cases s with
  | expression value =>
    simp only [Exec.execute]
    apply Keeps.bind (h.evaluate hm hhere hs.expression)
    intro _ m₁ hafter _
    apply Keeps.pure hafter.sound
    rw [FlowOk, Stmt.scopes_of_declares_nothing hs.shaped rfl]
    exact hhere.after hafter
  | var name initializer =>
    have hname : IsName name.lexeme := hs.shaped
    cases initializer with
    | none =>
      simp only [Exec.execute]
      -- Without an initializer the name is bound to `nil`.
      apply Keeps.bind (Keeps.define hm hname (by trivial))
      intro _ m₁ hafter hframes
      apply Keeps.pure hafter.sound
      rw [FlowOk, Stmt.scopes_of_declares hs.shaped rfl]
      exact hhere.define hm hname hafter hframes
    | some value =>
      simp only [Exec.execute]
      -- The walk declares the name before it resolves the initializer, but no frame binds it yet.
      have hdeclared : Here m (r.declare name).scopes := Mirrors.declare hhere hname
      apply Keeps.bind (h.evaluate hm hdeclared hs.initializer)
      intro result m₁ hafter₁ hresult
      apply Keeps.bind (Keeps.define hafter₁.sound hname hresult)
      intro _ m₂ hafter₂ hframes
      apply Keeps.pure hafter₂.sound
      rw [FlowOk, Stmt.scopes_of_declares hs.shaped rfl]
      exact (hhere.after hafter₁).define hafter₁.sound hname hafter₂ hframes
  | block body =>
    simp only [Exec.execute]
    apply Keeps.bind (Keeps.newInnerFrame hm)
    rintro frame m₁ hafter₁ ⟨rfl, hframes₁⟩
    -- The body runs in a new frame, for which the walk has opened a scope.
    have hinner : Sound V { m₁ with current := m.frames.next } :=
      hafter₁.sound.of_eq rfl rfl rfl
    have hhere₁ : Here { m₁ with current := m.frames.next } r.openScope.scopes := by
      have hchild := Mirrors.child hhere hm.global
      rw [← hframes₁] at hchild
      exact hchild
    have hback := hhere.after hafter₁
    apply Keeps.inFrame (h.executeEach hinner hhere₁ hs.block)
    intro flow m₂ hafter₂ hflow
    have hhere₂ := hback.after hafter₂
    -- Behind the block the frame around it is at hand again, and so are its scopes.
    rw [← Stmt.scopes_of_declares_nothing hs.shaped rfl] at hhere₂
    cases flow with
    | normal => exact hhere₂
    | _ => exact hflow
  | conditional condition thenBranch elseBranch =>
    simp only [Exec.execute]
    obtain ⟨hcondition, hthen, hclosed, helse⟩ := hs.conditional
    have hsame := condition.sameScopes_resolve r
    apply Keeps.bind (h.evaluate hm hhere hcondition)
    intro value m₁ hafter _
    have hhere₁ := hhere.after hafter
    -- Both branches hand their flow on; the scopes behind them are those in front of the condition.
    split
    · exact h.branch hafter.sound hhere₁ hs rfl hthen hsame.outer hsame.scopes
    · cases elseBranch with
      | none =>
        apply Keeps.pure hafter.sound
        rw [FlowOk, Stmt.scopes_of_declares_nothing hs.shaped rfl]
        exact hhere₁
      | some elseBranch =>
        obtain ⟨helseOk, -⟩ := helse elseBranch rfl
        have hscopes := Stmt.scopes_of_declares_nothing hthen.shaped hclosed (condition.resolve r)
        exact h.branch hafter.sound hhere₁ hs rfl helseOk
          (hsame.outer.trans (thenBranch.sameOuter_resolve _)) (hscopes.trans hsame.scopes)
  | loop condition body increment =>
    apply Keeps.weaken (h.iterate hm hhere hs.loop)
    intro flow m₁ hafter hflow
    -- The loop has taken the signals of its body, so only a `return` leaves it.
    apply hflow.leave rfl rfl
    intro _
    rw [Stmt.scopes_of_declares_nothing hs.shaped rfl]
    exact hhere.after hafter
  | function d =>
    simp only [Exec.execute]
    have hname := hs.function.1
    -- The function sees the frame in which its own name is bound next.
    apply Keeps.bind (Keeps.get hm)
    rintro found m' - ⟨rfl, rfl⟩
    apply Keeps.bind (Keeps.newFunction hm d m'.current false)
    rintro f m₁ hafter₁ ⟨hdeclaration, hclosure, hplain, hframes₁⟩
    have hdefine := hafter₁.sound.defineFunction (hhere.after hafter₁) hs hdeclaration
      (hclosure.trans hafter₁.current.symm) hplain
    refine ⟨hdefine, ?_⟩
    rw [FlowOk, Stmt.scopes_of_declares hs.shaped rfl]
    exact (hhere.after hafter₁).define hafter₁.sound hname hdefine rfl
  | returning keyword value =>
    obtain ⟨hinside, hvalue⟩ := hs.returning
    cases value with
    | none => exact Keeps.pure hm ⟨hinside, trivial, fun _ => rfl⟩
    | some value =>
      -- A value may be returned unless the routine is an initializer.
      obtain ⟨hvalue, hallowed⟩ := hvalue value rfl
      simp only [Exec.execute]
      apply Keeps.bind (h.evaluate hm hhere hvalue)
      intro result m₁ hafter hresult
      exact Keeps.pure hafter.sound ⟨hinside, hresult, fun hinit => absurd hinit hallowed⟩
  | breaking keyword => exact Keeps.pure hm hs.breaking
  | continuing keyword => exact Keeps.pure hm hs.continuing
  | «class» name superclass methods =>
    simp only [Exec.execute]
    apply Keeps.bind (Keeps.declareClass hm hhere hs)
    intro _ m₁ hafter hdeclared
    apply Keeps.pure hafter.sound
    -- Class and methods are declared by `declareClass`, which knows the frames they see.
    rw [FlowOk, Stmt.scopes_of_declares hs.shaped rfl]
    exact hdeclared

theorem SoundAt.executeEach_succ (h : SoundAt V rules fuel) {ss : List Stmt} (hm : Sound V m)
    (hhere : Here m r.scopes) (hss : StmtEachOk V r ss) :
    Keeps V m (FlowOk V r (Stmt.resolveEach ss r)) (Exec.executeEach rules (fuel + 1) ss m) := by
  cases ss with
  | nil => exact Keeps.pure hm hhere
  | cons s rest =>
    simp only [Exec.executeEach]
    obtain ⟨hs, hrest⟩ := hss.cons
    have hsame := s.sameOuter_resolve r
    apply Keeps.bind (h.execute hm hhere hs)
    intro flow m₁ hafter hflow
    cases flow with
    | normal =>
      apply Keeps.weaken (h.executeEach hafter.sound hflow hrest)
      intro flow m₂ _ hflow
      apply hflow.leave hsame.loopDepth.symm hsame.routine.symm
      rintro rfl
      exact hflow
    | _ => exact Keeps.pure hafter.sound hflow

/-- What a loop does behind its body. -/
def Exec.nextTurn (rules : Rules) (fuel : Nat) (condition : Expr) (body : Stmt) :
    Option Expr → Exec Flow
  | none => Exec.iterate rules fuel condition body none
  | some step => do
    let _ ← Exec.evaluate rules fuel step
    Exec.iterate rules fuel condition body (some step)

/-- A turn of a loop, and how it ends. -/
theorem Exec.iterate_succ (rules : Rules) (fuel : Nat) (condition : Expr) (body : Stmt)
    (increment : Option Expr) :
    Exec.iterate rules (fuel + 1) condition body increment = (do
      let value ← Exec.evaluate rules fuel condition
      if value.isTruthy then
        let flow ← Exec.execute rules fuel body
        match flow with
        | .normal => Exec.nextTurn rules fuel condition body increment
        | .breaking => return .normal
        | .continuing => Exec.nextTurn rules fuel condition body increment
        | .returning value => return .returning value
      else return .normal) := by
  simp only [Exec.iterate]
  congr 1
  funext value
  congr 1
  congr 1
  funext flow
  cases flow <;> cases increment <;> rfl

theorem SoundAt.nextTurn (h : SoundAt V rules fuel) {condition : Expr} {body : Stmt}
    {increment : Option Expr} (hm : Sound V m) (hhere : Here m r.scopes)
    (hloop : LoopOk V r condition body increment) :
    Keeps V m (FlowOk V r r) (Exec.nextTurn rules fuel condition body increment m) := by
  cases increment with
  | none => exact h.iterate hm hhere hloop
  | some step =>
    apply Keeps.bind (h.evaluate hm hhere (hloop.step step rfl))
    intro _ m' hafter _
    exact h.iterate hafter.sound (hhere.after hafter) hloop

/-- Each turn of a loop starts where the loop stands. -/
theorem SoundAt.iterate_succ (h : SoundAt V rules fuel) {condition : Expr} {body : Stmt}
    {increment : Option Expr} (hm : Sound V m) (hhere : Here m r.scopes)
    (hloop : LoopOk V r condition body increment) :
    Keeps V m (FlowOk V r r) (Exec.iterate rules (fuel + 1) condition body increment m) := by
  rw [Exec.iterate_succ]
  have hsame := condition.sameScopes_resolve r
  apply Keeps.bind (h.evaluate hm hhere hloop.test)
  intro value m₁ hafter₁ _
  have hhere₁ := hhere.after hafter₁
  split
  · have hinner : Here m₁ (condition.resolve r).enterLoop.scopes := hsame.scopes ▸ hhere₁
    apply Keeps.bind (h.execute hafter₁.sound hinner hloop.inner)
    intro flow m₂ hafter₂ hflow
    have hhere₂ := hhere₁.after hafter₂
    cases flow with
    | normal => exact h.nextTurn hafter₂.sound hhere₂ hloop
    | continuing => exact h.nextTurn hafter₂.sound hhere₂ hloop
    | breaking => exact Keeps.pure hafter₂.sound hhere₂
    | returning value =>
      apply Keeps.pure hafter₂.sound
      rw [FlowOk, ← hsame.routine]
      exact hflow
  · exact Keeps.pure hafter₁.sound hhere₁

theorem soundAt_zero (V : Visit → Prop) (rules : Rules) : SoundAt V rules 0 := by
  constructor
  all_goals
    intros
    exact Keeps.outOfFuel ‹_›

/-- Evaluation keeps machines sound, whatever the bound of the recursion. -/
theorem soundAt (V : Visit → Prop) (rules : Rules) (fuel : Nat) : SoundAt V rules fuel := by
  induction fuel with
  | zero => exact soundAt_zero V rules
  | succ fuel ih =>
    exact ⟨ih.evaluate_succ, ih.evaluateEach_succ, ih.call_succ, ih.callFunction_succ,
      ih.execute_succ, ih.executeEach_succ, ih.iterate_succ⟩

end Lox
