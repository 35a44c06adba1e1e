import Lox.Proofs.Execution.Searching
import Lox.Proofs.Execution.Similar

/-!
# Searching agrees with going by distance

Where code is seen from the frames that it runs in, an execution that looks names up by
search has the same result as one that looks them up by distance.  `AgreesAt` says so for
one bound of the recursion, and each function of the evaluator is taken one step further.
What soundness says of the results is known already and is carried along.
-/

namespace Lox

open Resolution Exec

variable {V : Visit → Prop} {L : Limits} {rules : Rules} {fuel : Nat} {m : Machine}
  {r : Resolution} {scopes : List Scope} {Δ : Outlook}

/-- Both ways of looking names up agree, with this bound of the recursion. -/
structure AgreesAt (V : Visit → Prop) (rules : Rules) (fuel : Nat) : Prop where
  evaluate : ∀ {L : Limits} {m : Machine} {scopes : List Scope} {Δ : Outlook} {e : Expr},
    Placed V L m scopes Δ → ExprOk V scopes e → e.Seen V Δ →
    Agrees V L m (fun L' value m' => ValueOk V m'.frames value ∧ ValueSeen V L' m'.frames value)
      (evaluate rules.bySearch fuel e m) (evaluate rules.byDistance fuel e m)
  evaluateEach : ∀ {L : Limits} {m : Machine} {scopes : List Scope} {Δ : Outlook}
    {es : List Expr}, Placed V L m scopes Δ → ExprEachOk V scopes es → Expr.SeenEach V es Δ →
    Agrees V L m
      (fun L' values m' => ValuesOk V m'.frames values ∧ ValuesSeen V L' m'.frames values)
      (evaluateEach rules.bySearch fuel es m) (evaluateEach rules.byDistance fuel es m)
  call : ∀ {L : Limits} {m : Machine} {callee : Value} {arguments : List Value} {line : Nat},
    Confined V L m → ValueOk V m.frames callee → ValueSeen V L m.frames callee →
    ValuesOk V m.frames arguments → ValuesSeen V L m.frames arguments →
    callee.arity? = some arguments.length →
    Agrees V L m (fun L' value m' => ValueOk V m'.frames value ∧ ValueSeen V L' m'.frames value)
      (call rules.bySearch fuel callee arguments line m)
      (call rules.byDistance fuel callee arguments line m)
  callFunction : ∀ {L : Limits} {m : Machine} {f : Function} {arguments : List Value} {line : Nat},
    Confined V L m → FunctionOk V m.frames f → FunctionSeen V L m.frames f →
    ValuesOk V m.frames arguments → ValuesSeen V L m.frames arguments →
    f.arity = arguments.length →
    Agrees V L m (fun L' value m' => ValueOk V m'.frames value ∧ ValueSeen V L' m'.frames value)
      (callFunction rules.bySearch fuel f arguments line m)
      (callFunction rules.byDistance fuel f arguments line m)
  execute : ∀ {L : Limits} {m : Machine} {r : Resolution} {Δ : Outlook} {s : Stmt},
    Placed V L m r.scopes Δ → StmtOk V r s → s.Seen V Δ →
    Agrees V L m
      (fun L' flow m' => FlowOk V r (s.resolve r) flow m' ∧ ValueSeen V L' m'.frames flow.result)
      (execute rules.bySearch fuel s m) (execute rules.byDistance fuel s m)
  executeEach : ∀ {L : Limits} {m : Machine} {r : Resolution} {Δ : Outlook} {ss : List Stmt},
    Placed V L m r.scopes Δ → StmtEachOk V r ss → Stmt.SeenEach V ss Δ →
    Agrees V L m
      (fun L' flow m' =>
        FlowOk V r (Stmt.resolveEach ss r) flow m' ∧ ValueSeen V L' m'.frames flow.result)
      (executeEach rules.bySearch fuel ss m) (executeEach rules.byDistance fuel ss m)
  iterate : ∀ {L : Limits} {m : Machine} {r : Resolution} {Δ : Outlook} {condition : Expr}
    {body : Stmt} {increment : Option Expr}, Placed V L m r.scopes Δ →
    LoopOk V r condition body increment → (Stmt.loop condition body increment).Seen V Δ →
    Agrees V L m
      (fun L' flow m' => FlowOk V r r flow m' ∧ ValueSeen V L' m'.frames flow.result)
      (iterate rules.bySearch fuel condition body increment m)
      (iterate rules.byDistance fuel condition body increment m)

/-! ### Expressions -/

def Value.IsPlain : Value → Prop
  | .function _ | .class _ | .object _ => False
  | _ => True

theorem Value.IsPlain.seen {value : Value} (h : value.IsPlain) (V : Visit → Prop) (L : Limits)
    (frames : Frames Value) : ValueSeen V L frames value := by
  cases value with
  | function f => cases h
  | «class» c => cases h
  | object owner => cases h
  | _ => trivial

theorem Value.Plain.isPlain {value : Value} (h : value.Plain) : value.IsPlain := by
  cases value with
  | nil | bool | number | string => trivial
  | _ => cases h

theorem AgreesAt.evaluate_succ (h : AgreesAt V rules fuel) {e : Expr}
    (hm : Placed V L m scopes Δ) (he : ExprOk V scopes e) (hseen : e.Seen V Δ) :
    Agrees V L m (Agrees.Yields V) (Exec.evaluate rules.bySearch (fuel + 1) e m)
      (Exec.evaluate rules.byDistance (fuel + 1) e m) := by
  cases e with
  | literal value =>
    simp only [Exec.evaluate]
    apply Agrees.pure hm.confined
    -- There is no function in a literal.
    cases value <;> trivial
  | group inner =>
    have hinner : ExprOk V scopes inner := he
    have hseen' : inner.Seen V Δ := hseen
    simp only [Exec.evaluate]
    exact (h.evaluate hm hinner hseen').of_and
  | unary operator operand =>
    simp only [Exec.evaluate]
    apply Agrees.bind (h.evaluate hm he.unary hseen)
    intro L₁ value m₁ hlater _
    -- Operators yield values without code, which every forest confines.
    have hsame := Operator.same_unary_self operator value
    exact Agrees.lift hlater.confined fun _ hok => (hsame.plain hok).isPlain.seen _ _ _
  | binary left operator right =>
    simp only [Exec.evaluate]
    obtain ⟨hleft, hright⟩ := he.binary
    apply Agrees.bind (h.evaluate hm hleft hseen.binary.1)
    intro L₁ leftValue m₁ hlater₁ _
    apply Agrees.bind (h.evaluate (hm.later hlater₁) hright hseen.binary.2)
    intro L₂ rightValue m₂ hlater₂ _
    have hsame := Operator.same_binary_self operator leftValue rightValue
    exact Agrees.lift hlater₂.confined fun _ hok => (hsame.plain hok).isPlain.seen _ _ _
  | logical left operator right =>
    simp only [Exec.evaluate]
    obtain ⟨hleft, hright⟩ := he.logical
    apply Agrees.bind (h.evaluate hm hleft hseen.logical.1)
    intro L₁ leftValue m₁ hlater hvalue
    -- Both searches take the same side, since they have the same value on the left.
    split
    · exact Agrees.pure hlater.confined hvalue.2
    · exact (h.evaluate (hm.later hlater) hright hseen.logical.2).of_and
  | read place => exact Agrees.readVariable rules hm he.read hseen.read
  | assign place value =>
    simp only [Exec.evaluate]
    obtain ⟨hvalue, hplace⟩ := he.assign
    apply Agrees.bind (h.evaluate hm hvalue hseen.assign.1)
    rintro L₁ result m₁ hlater₁ ⟨hok, hresult⟩
    -- The frame that an assignment finds by search is the one at the distance.
    apply Agrees.bind (Agrees.assignVariable (hm.later hlater₁) hplace hseen.assign.2 hok hresult)
    intro L₂ _ m₂ hlater₂ _
    exact Agrees.pure hlater₂.confined (hlater₂.value hresult)
  | call callee paren arguments =>
    simp only [Exec.evaluate]
    obtain ⟨hcallee, harguments⟩ := he.call
    apply Agrees.bind (h.evaluate hm hcallee hseen.call.1)
    rintro L₁ target m₁ hlater₁ ⟨hok, htarget⟩
    apply Agrees.bind (h.evaluateEach (hm.later hlater₁) harguments hseen.call.2)
    rintro L₂ values m₂ hlater₂ ⟨hoks, hvalues⟩
    -- The checks look at values only; that they keep the machine sound is known already.
    apply Agrees.bind ((Agrees.checkCall hlater₂.confined target values.length paren.line).and_keeps
      (Keeps.checkCall hlater₂.confined.sound target values.length paren.line))
    rintro L₃ _ m₃ hlater₃ ⟨harity, -⟩
    have hsound : Sound V { m₃ with depth := m₃.depth + 1 } :=
      hlater₃.confined.sound.of_eq rfl rfl rfl
    have hgrows := hlater₂.after.grows.trans hlater₃.after.grows
    refine Agrees.asCall ?_ fun _ _ _ _ hpost => hpost
    -- The values were yielded by the searching run and by the other one, and seen in later frames.
    exact (h.call (hlater₃.confined.of_eq hsound rfl rfl) (hok.grow hgrows)
      ((hlater₂.trans hlater₃).value htarget) (hoks.grow hlater₃.after.grows)
      (hlater₃.values hvalues) harity).of_and
  | get object name =>
    simp only [Exec.evaluate]
    apply Agrees.bind (h.evaluate hm he.get hseen)
    rintro L₁ value m₁ hlater ⟨hok, hvalue⟩
    cases value with
    -- A method that is read makes a new function on its closure.
    | object owner => exact Agrees.getProperty hlater.confined hok hvalue name
    | _ => exact Agrees.fail _ _
  | set object name value =>
    simp only [Exec.evaluate]
    obtain ⟨hobject, hvalue⟩ := he.set
    apply Agrees.bind (h.evaluate hm hobject hseen.set.1)
    rintro L₁ owner m₁ hlater₁ -
    cases owner with
    | object owner =>
      apply Agrees.bind (h.evaluate (hm.later hlater₁) hvalue hseen.set.2)
      rintro L₂ result m₂ hlater₂ ⟨hok, hresult⟩
      apply Agrees.bind (Agrees.setField hlater₂.confined owner name.lexeme hok hresult)
      intro L₃ _ m₃ hlater₃ _
      exact Agrees.pure hlater₃.confined (hlater₃.value hresult)
    | _ => exact Agrees.fail _ _
  -- `this` and `super` are looked up at their distance by both rules.
  | this place => exact Agrees.readResolved hm.confined place
  | super place method => exact Agrees.getSuper hm he.super method

theorem AgreesAt.evaluateEach_succ (h : AgreesAt V rules fuel) {es : List Expr}
    (hm : Placed V L m scopes Δ) (hes : ExprEachOk V scopes es) (hseen : Expr.SeenEach V es Δ) :
    Agrees V L m (fun L' values m' => ValuesSeen V L' m'.frames values)
      (Exec.evaluateEach rules.bySearch (fuel + 1) es m)
      (Exec.evaluateEach rules.byDistance (fuel + 1) es m) := by
  cases es with
  | nil => exact Agrees.pure hm.confined fun _ hvalue => absurd hvalue List.not_mem_nil
  | cons e rest =>
    simp only [Exec.evaluateEach]
    obtain ⟨he, hrest⟩ := hes.cons
    apply Agrees.bind (h.evaluate hm he hseen.cons.1)
    rintro L₁ value m₁ hlater₁ ⟨-, hvalue⟩
    apply Agrees.bind (h.evaluateEach (hm.later hlater₁) hrest hseen.cons.2)
    rintro L₂ values m₂ hlater₂ ⟨-, hvalues⟩
    apply Agrees.pure hlater₂.confined
    intro other hother
    rcases List.mem_cons.mp hother with rfl | hother
    · exact hlater₂.value hvalue
    · exact hvalues other hother

/-! ### Calls -/

theorem AgreesAt.callFunction_succ (h : AgreesAt V rules fuel) {f : Function}
    {arguments : List Value} {line : Nat} (hm : Confined V L m) (hf : FunctionOk V m.frames f)
    (hseen : FunctionSeen V L m.frames f) (hoks : ValuesOk V m.frames arguments)
    (hvalues : ValuesSeen V L m.frames arguments) (harity : f.arity = arguments.length) :
    Agrees V L m (Agrees.Yields V)
      (Exec.callFunction rules.bySearch (fuel + 1) f arguments line m)
      (Exec.callFunction rules.byDistance (fuel + 1) f arguments line m) := by
  obtain ⟨routine, r, hroutine, hmirrors, -⟩ := hf.routine
  obtain ⟨Δ, hlimited, hdecl⟩ := hseen
  simp only [Exec.callFunction]
  apply Agrees.bind ((Agrees.bindArguments hm hlimited hroutine.isName hoks hvalues).and_keeps
    (Keeps.bindArguments hm.sound hroutine hmirrors hoks harity))
  rintro L₁ frame m₁ hlater₁ ⟨⟨hbound, -⟩, hframe⟩
  have hinner : Sound V { m₁ with current := frame } := hlater₁.confined.sound.of_eq rfl rfl rfl
  have hplaced : Placed V L₁ { m₁ with current := frame }
      (r.enterRoutine routine f.declaration.parameters).scopes (f.declaration.declared :: Δ) :=
    ⟨hlater₁.confined.of_eq hinner rfl rfl, hbound, hframe⟩
  have hbody : Agrees V L₁ m₁ (fun L' flow m' => ValueSeen V L' m'.frames flow.result)
      (Exec.inFrame frame (Exec.executeEach rules.bySearch fuel f.declaration.body) m₁)
      (Exec.inFrame frame (Exec.executeEach rules.byDistance fuel f.declaration.body) m₁) :=
    Agrees.inFrame (h.executeEach hplaced hroutine.body hdecl.inner) fun _ _ _ hflow => hflow.2
  apply Agrees.bind hbody
  intro L₂ flow m₂ hlater₂ hresult
  exact Agrees.callResult hlater₂.confined f hresult line

theorem AgreesAt.call_succ (h : AgreesAt V rules fuel) {callee : Value} {arguments : List Value}
    {line : Nat} (hm : Confined V L m) (hcallee : ValueOk V m.frames callee)
    (hseen : ValueSeen V L m.frames callee) (hoks : ValuesOk V m.frames arguments)
    (hvalues : ValuesSeen V L m.frames arguments)
    (harity : callee.arity? = some arguments.length) :
    Agrees V L m (Agrees.Yields V) (Exec.call rules.bySearch (fuel + 1) callee arguments line m)
      (Exec.call rules.byDistance (fuel + 1) callee arguments line m) := by
  cases callee with
  | native native => exact Agrees.callNative hm native arguments line
  -- A function is called with as many arguments as it has parameters.
  | function f =>
    exact (h.callFunction hm hcallee hseen hoks hvalues (Option.some.inj harity)).of_and
  | «class» c =>
    simp only [Exec.call]
    apply Agrees.bind (Agrees.newInstance hm c)
    rintro L₁ owner m₁ hlater₁ rfl
    have hok : ClassOk V m₁.frames owner.cls := ClassOk.grow hlater₁.after.grows hcallee
    have hclass : ClassSeen V L₁ m₁.frames owner.cls := hlater₁.class hseen
    -- A class without an initializer gives its new instance.
    cases hinitializer : owner.cls.initializer? with
    | none => exact Agrees.pure hlater₁.confined hclass
    | some method =>
      apply Agrees.bind ((Agrees.bindMethod hlater₁.confined (hclass.findMethod? hinitializer) hok
        hclass).and_keeps (Keeps.bindMethod hlater₁.confined.sound (hok.findMethod? hinitializer)
          hok))
      rintro L₂ f m₂ hlater₂ ⟨⟨hf, hdeclaration⟩, hfSeen⟩
      -- The initializer takes as many arguments as the class.
      have hlength : f.arity = arguments.length := by
        have harity' : owner.cls.arity = arguments.length := Option.some.inj harity
        rw [← harity', Class.arity_of_initializer hinitializer, Function.arity, hdeclaration]
        rfl
      have hlater := hlater₁.trans hlater₂
      apply Agrees.bind (h.callFunction hlater₂.confined hf hfSeen (hoks.grow hlater.after.grows)
        (hlater.values hvalues) hlength)
      intro L₃ _ m₃ hlater₃ _
      exact Agrees.pure hlater₃.confined ((hlater₂.trans hlater₃).class hclass)
  | _ => cases harity

/-! ### Statements -/

theorem AgreesAt.execute_succ (h : AgreesAt V rules fuel) {s : Stmt}
    (hm : Placed V L m r.scopes Δ) (hs : StmtOk V r s) (hseen : s.Seen V Δ) :
    Agrees V L m (fun L' flow m' => ValueSeen V L' m'.frames flow.result)
      (Exec.execute rules.bySearch (fuel + 1) s m)
      (Exec.execute rules.byDistance (fuel + 1) s m) := by
  cases s with
  | expression value =>
    simp only [Exec.execute]
    apply Agrees.bind (h.evaluate hm hs.expression hseen)
    intro L₁ _ m₁ hlater _
    exact Agrees.pure hlater.confined trivial
  | var name initializer =>
    -- What the name adds to its frame is one of the names that the scope is to declare.
    have hname : IsName name.lexeme := hs.shaped
    obtain ⟨hdeclares, hinitializer⟩ := hseen
    cases initializer with
    | none =>
      simp only [Exec.execute]
      apply Agrees.bind (Agrees.define hm hname hdeclares (by trivial) (by trivial))
      intro L₁ _ m₁ hlater _
      exact Agrees.pure hlater.confined trivial
    | some value =>
      simp only [Exec.execute]
      have hdeclared : Placed V L m (r.declare name).scopes Δ :=
        ⟨hm.confined, Mirrors.declare hm.here hname, hm.limited⟩
      apply Agrees.bind (h.evaluate hdeclared hs.initializer (hinitializer value rfl))
      rintro L₁ result m₁ hlater₁ ⟨hok, hresult⟩
      apply Agrees.bind (Agrees.define (hm.later hlater₁) hname hdeclares hok hresult)
      intro L₂ _ m₂ hlater₂ _
      exact Agrees.pure hlater₂.confined trivial
  | block body =>
    simp only [Exec.execute]
    -- The new frame may bind what the block declares, and nothing else.
    apply Agrees.bind ((Agrees.newInnerFrame hm (Stmt.declaredEach body)).and_keeps
      (Keeps.newInnerFrame hm.confined.sound))
    rintro L₁ frame m₁ hlater₁ ⟨⟨rfl, hframes₁⟩, hframe, -⟩
    have hinner : Sound V { m₁ with current := m.frames.next } :=
      hlater₁.confined.sound.of_eq rfl rfl rfl
    have hhere : Here { m₁ with current := m.frames.next } r.openScope.scopes := by
      have hchild := Mirrors.child hm.here hm.confined.sound.global
      rw [← hframes₁] at hchild
      exact hchild
    have hplaced : Placed V L₁ { m₁ with current := m.frames.next } r.openScope.scopes
        (Stmt.declaredEach body :: Δ) :=
      ⟨hlater₁.confined.of_eq hinner rfl rfl, hhere, hframe⟩
    exact Agrees.inFrame (h.executeEach hplaced hs.block hseen) fun _ _ _ hflow => hflow.2
  | conditional condition thenBranch elseBranch =>
    simp only [Exec.execute]
    obtain ⟨hcondition, hthen, hclosed, helse⟩ := hs.conditional
    -- Neither the condition nor a branch that declares nothing moves the scopes.
    have hscopes := (condition.sameScopes_resolve r).scopes
    have hscopes' := Stmt.scopes_of_declares_nothing hthen.shaped hclosed (condition.resolve r)
    cases elseBranch with
    | none =>
      apply Agrees.bind (h.evaluate hm hcondition hseen.1)
      intro L₁ value m₁ hlater _
      have hm₁ := hm.later hlater
      split
      · rw [← hscopes] at hm₁
        exact (h.execute hm₁ hthen hseen.2).of_and
      · exact Agrees.pure hm₁.confined trivial
    | some elseBranch =>
      apply Agrees.bind (h.evaluate hm hcondition hseen.1)
      intro L₁ value m₁ hlater _
      have hm₁ := hm.later hlater
      rw [← hscopes] at hm₁
      split
      · exact (h.execute hm₁ hthen hseen.2.1).of_and
      · rw [← hscopes'] at hm₁
        exact (h.execute hm₁ (helse elseBranch rfl).1 hseen.2.2).of_and
  | loop condition body increment =>
    exact (h.iterate hm hs.loop hseen).of_and
  | function d =>
    simp only [Exec.execute]
    apply Agrees.bind_get
    apply Agrees.bind ((Agrees.newFunction hm.confined d m.current false).and_keeps
      (Keeps.newFunction hm.confined.sound d m.current false))
    rintro L₁ f m₁ hlater ⟨⟨hdeclaration, hclosure, hplain, -⟩, -⟩
    have hm₁ := hm.later hlater
    -- The function sees the scopes that its declaration stands in.
    have hcurrent := hclosure.trans hlater.after.current.symm
    have hafter := hm₁.confined.sound.defineFunction hm₁.here hs hdeclaration hcurrent hplain
    have hfunction : FunctionSeen V L₁ m₁.frames f :=
      ⟨Δ, hcurrent ▸ hm₁.limited, hdeclaration ▸ hseen.2⟩
    exact Agrees.ok (hm₁.confined.define hafter (hm₁.limited.declares hseen.1) hfunction) trivial
  | returning keyword value =>
    obtain ⟨-, hvalue⟩ := hs.returning
    -- What is returned is seen wherever the call is made.
    cases value with
    | none => exact Agrees.pure hm.confined trivial
    | some value =>
      simp only [Exec.execute]
      apply Agrees.bind (h.evaluate hm (hvalue value rfl).1 (hseen value rfl))
      rintro L₁ result m₁ hlater ⟨-, hresult⟩
      exact Agrees.pure hlater.confined hresult
  | breaking keyword => exact Agrees.pure hm.confined trivial
  | continuing keyword => exact Agrees.pure hm.confined trivial
  | «class» name superclass methods =>
    simp only [Exec.execute]
    apply Agrees.bind (Agrees.declareClass hm hs hseen)
    intro L₁ _ m₁ hlater _
    exact Agrees.pure hlater.confined trivial

theorem AgreesAt.executeEach_succ (h : AgreesAt V rules fuel) {ss : List Stmt}
    (hm : Placed V L m r.scopes Δ) (hss : StmtEachOk V r ss) (hseen : Stmt.SeenEach V ss Δ) :
    Agrees V L m (fun L' flow m' => ValueSeen V L' m'.frames flow.result)
      (Exec.executeEach rules.bySearch (fuel + 1) ss m)
      (Exec.executeEach rules.byDistance (fuel + 1) ss m) := by
  cases ss with
  | nil => exact Agrees.pure hm.confined trivial
  | cons s rest =>
    simp only [Exec.executeEach]
    obtain ⟨hs, hrest⟩ := hss.cons
    apply Agrees.bind (h.execute hm hs hseen.1)
    rintro L₁ flow m₁ hlater ⟨hflow, hresult⟩
    cases flow with
    | normal =>
      have hm₁ : Placed V L₁ m₁ (s.resolve r).scopes Δ :=
        ⟨hlater.confined, hflow, (hm.later hlater).limited⟩
      exact (h.executeEach hm₁ hrest hseen.2).of_and
    | _ => exact Agrees.pure hlater.confined hresult

theorem AgreesAt.nextTurn (h : AgreesAt V rules fuel) {condition : Expr} {body : Stmt}
    {increment : Option Expr} (hm : Placed V L m r.scopes Δ)
    (hloop : LoopOk V r condition body increment)
    (hseen : (Stmt.loop condition body increment).Seen V Δ) :
    Agrees V L m (fun L' flow m' => ValueSeen V L' m'.frames flow.result)
      (Exec.nextTurn rules.bySearch fuel condition body increment m)
      (Exec.nextTurn rules.byDistance fuel condition body increment m) := by
  cases increment with
  | none => exact (h.iterate hm hloop hseen).of_and
  | some step =>
    apply Agrees.bind (h.evaluate hm (hloop.step step rfl) (hseen.2.2 step rfl))
    intro L₁ _ m₁ hlater _
    exact (h.iterate (hm.later hlater) hloop hseen).of_and

theorem AgreesAt.iterate_succ (h : AgreesAt V rules fuel) {condition : Expr} {body : Stmt}
    {increment : Option Expr} (hm : Placed V L m r.scopes Δ)
    (hloop : LoopOk V r condition body increment)
    (hseen : (Stmt.loop condition body increment).Seen V Δ) :
    Agrees V L m (fun L' flow m' => ValueSeen V L' m'.frames flow.result)
      (Exec.iterate rules.bySearch (fuel + 1) condition body increment m)
      (Exec.iterate rules.byDistance (fuel + 1) condition body increment m) := by
  rw [Exec.iterate_succ, Exec.iterate_succ]
  obtain ⟨hcondition, hbody, -⟩ := id hseen
  have hscopes : (condition.resolve r).enterLoop.scopes = r.scopes :=
    (condition.sameScopes_resolve r).scopes
  apply Agrees.bind (h.evaluate hm hloop.test hcondition)
  intro L₁ value m₁ hlater₁ _
  have hm₁ := hm.later hlater₁
  split
  · have hinner := hm₁
    rw [← hscopes] at hinner
    apply Agrees.bind (h.execute hinner hloop.inner hbody)
    rintro L₂ flow m₂ hlater₂ ⟨-, hresult⟩
    have hm₂ := hm₁.later hlater₂
    cases flow with
    | normal => exact h.nextTurn hm₂ hloop hseen
    | continuing => exact h.nextTurn hm₂ hloop hseen
    | breaking => exact Agrees.pure hm₂.confined trivial
    | returning value => exact Agrees.pure hm₂.confined hresult
  · exact Agrees.pure hm₁.confined trivial

theorem agreesAt_zero (V : Visit → Prop) (rules : Rules) : AgreesAt V rules 0 := by
  constructor
  all_goals
    intros
    exact Agrees.error _ _

/-- Both ways of looking names up agree, whatever the bound of the recursion. -/
theorem agreesAt (V : Visit → Prop) (rules : Rules) (fuel : Nat) : AgreesAt V rules fuel := by
  induction fuel with
  | zero => exact agreesAt_zero V rules
  | succ fuel ih =>
    have hsound := soundAt V rules.byDistance (fuel + 1)
    constructor
    · intro L m scopes Δ e hm he hseen
      exact (ih.evaluate_succ hm he hseen).and_keeps (hsound.evaluate hm.confined.sound hm.here he)
    · intro L m scopes Δ es hm hes hseen
      exact (ih.evaluateEach_succ hm hes hseen).and_keeps
        (hsound.evaluateEach hm.confined.sound hm.here hes)
    · intro L m callee arguments line hm hcallee hseen hoks hvalues harity
      exact (ih.call_succ hm hcallee hseen hoks hvalues harity).and_keeps
        (hsound.call hm.sound hcallee hoks harity)
    · intro L m f arguments line hm hf hseen hoks hvalues harity
      exact (ih.callFunction_succ hm hf hseen hoks hvalues harity).and_keeps
        (hsound.callFunction hm.sound hf hoks harity)
    · intro L m r Δ s hm hs hseen
      exact (ih.execute_succ hm hs hseen).and_keeps (hsound.execute hm.confined.sound hm.here hs)
    · intro L m r Δ ss hm hss hseen
      exact (ih.executeEach_succ hm hss hseen).and_keeps
        (hsound.executeEach hm.confined.sound hm.here hss)
    · intro L m r Δ condition body increment hm hloop hseen
      exact (ih.iterate_succ hm hloop hseen).and_keeps
        (hsound.iterate hm.confined.sound hm.here hloop)

end Lox
