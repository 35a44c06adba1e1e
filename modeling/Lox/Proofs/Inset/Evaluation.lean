import Lox.Proofs.Inset.Turns
import Lox.Proofs.Inset.Values

/-!
# Expressions, calls and classes at an inset

Code at an inset matches the code that it is compared with, in machines of which the second
has further frames.  All functions of the evaluator are taken together, by induction on the
bound of the first execution: here is what is shown of each, and the step for expressions,
calls and classes.
-/

namespace Lox

open Exec

variable {D D' : Distances} {rules : Rules} {n N : Nat} {image : Nat → Nat} {m m' : Machine}
  {σ : Inset} {k : Nat} {step : Option Expr} {home : FrameId}

/-! ### What is shown -/

/-- Statements end in ways that correspond. -/
inductive FlowEmbedded (D D' : Distances) (W : Embedding) : Flow → Flow → Prop where
  | normal : FlowEmbedded D D' W .normal .normal
  | breaking : FlowEmbedded D D' W .breaking .breaking
  | continuing : FlowEmbedded D D' W .continuing .continuing
  | returning {value value' : Value} : ValueEmbedded D D' W value value' →
      FlowEmbedded D D' W (.returning value) (.returning value')

theorem FlowEmbedded.result {W : Embedding} {flow flow' : Flow}
    (h : FlowEmbedded D D' W flow flow') : ValueEmbedded D D' W flow.result flow'.result := by
  cases h with
  | returning hvalue => exact hvalue
  | _ => exact .nil

/-- Expressions are matched, with this bound of the first execution. -/
def EvaluatesAt (D D' : Distances) (rules : Rules) (n : Nat) : Prop :=
  ∀ {image : Nat → Nat} {m m' : Machine} {σ : Inset} {e e' : Expr},
    MachineEmbedded D D' image m m' → Sees (m.into m' image) σ m.current m'.current →
    ExprInset (InPlace D D') σ e e' →
    Matches D D' n image m m' (ValueEmbedded D D') (evaluate rules n e m)
      fun j => evaluate rules j e' m'

/-- The increment that is evaluated behind a `continue`, in the frame of its loop. -/
structure Stepping (D D' : Distances) (rules : Rules) (n N : Nat) (m : Machine) (k : Nat)
    (step : Option Expr) (home : FrameId) : Prop where
  le : n ≤ N
  evaluates : EvaluatesAt D D' rules N
  home : ∀ e, step = some e → m.frames.ancestor? m.current k = some home

/-- All functions of the evaluator are matched, with this bound of the first execution. -/
structure MatchesAt (D D' : Distances) (rules : Rules) (n : Nat) : Prop where
  evaluate : EvaluatesAt D D' rules n
  evaluateEach : ∀ {image : Nat → Nat} {m m' : Machine} {σ : Inset} {es es' : List Expr},
    MachineEmbedded D D' image m m' → Sees (m.into m' image) σ m.current m'.current →
    ExprEachInset (InPlace D D') σ es es' →
    Matches D D' n image m m' (ValuesEmbedded D D') (Exec.evaluateEach rules n es m)
      fun j => Exec.evaluateEach rules j es' m'
  call : ∀ {image : Nat → Nat} {m m' : Machine} {callee callee' : Value}
    {arguments arguments' : List Value} {line : Nat}, MachineEmbedded D D' image m m' →
    ValueEmbedded D D' (m.into m' image) callee callee' →
    ValuesEmbedded D D' (m.into m' image) arguments arguments' →
    Matches D D' n image m m' (ValueEmbedded D D') (Exec.call rules n callee arguments line m)
      fun j => Exec.call rules j callee' arguments' line m'
  callFunction : ∀ {image : Nat → Nat} {m m' : Machine} {f f' : Function}
    {arguments arguments' : List Value} {line : Nat}, MachineEmbedded D D' image m m' →
    FunctionEmbedded D D' (m.into m' image) true f f' →
    ValuesEmbedded D D' (m.into m' image) arguments arguments' →
    Matches D D' n image m m' (ValueEmbedded D D') (Exec.callFunction rules n f arguments line m)
      fun j => Exec.callFunction rules j f' arguments' line m'
  execute : ∀ {image : Nat → Nat} {m m' : Machine} {σ : Inset} {N k : Nat} {step : Option Expr}
    {home : FrameId} {s s' : Stmt}, MachineEmbedded D D' image m m' →
    Sees (m.into m' image) σ m.current m'.current → Stepping D D' rules n N m k step home →
    StmtInset (InPlace D D') σ k step s s' →
    Matches D D' n image m m' (FlowEmbedded D D')
      ((Exec.execute rules n s >>= thenStep rules N home step) m) fun j => Exec.execute rules j s' m'
  executeEach : ∀ {image : Nat → Nat} {m m' : Machine} {σ : Inset} {N k : Nat}
    {step : Option Expr} {home : FrameId} {ss ss' : List Stmt}, MachineEmbedded D D' image m m' →
    Sees (m.into m' image) σ m.current m'.current → Stepping D D' rules n N m k step home →
    StmtEachInset (InPlace D D') σ k step ss ss' →
    Matches D D' n image m m' (FlowEmbedded D D')
      ((Exec.executeEach rules n ss >>= thenStep rules N home step) m)
      fun j => Exec.executeEach rules j ss' m'
  iterate : ∀ {image : Nat → Nat} {m m' : Machine} {σ : Inset} {condition condition' : Expr}
    {body body' : Stmt} {increment increment' : Option Expr}, MachineEmbedded D D' image m m' →
    Sees (m.into m' image) σ m.current m'.current →
    ExprInset (InPlace D D') σ condition condition' →
    StmtInset (InPlace D D') σ 0 none body body' →
    ExprIn?Inset (InPlace D D') σ increment increment' →
    Matches D D' n image m m' (FlowEmbedded D D')
      (Exec.iterate rules n condition body increment m)
      fun j => Exec.iterate rules j condition' body' increment' m'
  unrolled : ∀ {image : Nat → Nat} {m m' : Machine} {σ : Inset} {condition condition' : Expr}
    {body body' : Stmt} {increment increment' : Option Expr}, MachineEmbedded D D' image m m' →
    Sees (m.into m' image) σ m.current m'.current →
    ExprInset (InPlace D D') σ condition condition' →
    StmtInset (InPlace D D') σ.further 0 increment body body' →
    ExprIn?Inset (InPlace D D') σ.further increment increment' →
    Matches D D' n image m m' (FlowEmbedded D D')
      (Exec.iterate rules n condition body increment m)
      fun j => Exec.iterate rules j condition' (Stmt.block (body' :: Stmt.steps increment')) none m'

/-! ### Going on -/

section

variable {m₁ m₁' : Machine} {image₁ : Nat → Nat}

theorem Sees.onward (h : Sees (m.into m' image) σ m.current m'.current)
    (honward : Onward₂ m m' image m₁ m₁' image₁) :
    Sees (m₁.into m₁' image₁) σ m₁.current m₁'.current := by
  rw [honward.left.current, honward.right.current]
  exact h.extend honward.extends

theorem Stepping.onward (h : Stepping D D' rules n N m k step home)
    (hcurrent : m.current < m.frames.size) (honward : m.Onward m₁) :
    Stepping D D' rules n N m₁ k step home := by
  refine ⟨h.le, h.evaluates, ?_⟩
  intro e he
  rw [honward.current, Frames.ancestor?_of_enclosing honward.enclosing hcurrent]
  exact h.home e he

theorem Stepping.of_le (h : Stepping D D' rules n N m k step home) {l : Nat} (hl : l ≤ n) :
    Stepping D D' rules l N m k step home :=
  ⟨Nat.le_trans hl h.le, h.evaluates, h.home⟩

/-- Without an increment nothing is asked. -/
theorem Stepping.none (h : EvaluatesAt D D' rules n) (m : Machine) (k : Nat) (home : FrameId) :
    Stepping D D' rules n n m k none home :=
  ⟨Nat.le_refl n, h, fun _ he => by cases he⟩

/-- At the start of the body of a loop. -/
theorem Stepping.start (h : EvaluatesAt D D' rules n) (m : Machine) (step : Option Expr) :
    Stepping D D' rules n n m 0 step m.current :=
  ⟨Nat.le_refl n, h, fun _ _ => rfl⟩

end

/-- Statements with no increment to care for. -/
theorem MatchesAt.executeEach_plain (h : MatchesAt D D' rules n)
    (hm : MachineEmbedded D D' image m m')
    (hsees : Sees (m.into m' image) σ m.current m'.current) {ss ss' : List Stmt}
    (hss : StmtEachInset (InPlace D D') σ 0 none ss ss') :
    Matches D D' n image m m' (FlowEmbedded D D') (Exec.executeEach rules n ss m)
      fun j => Exec.executeEach rules j ss' m' := by
  have hrun := h.executeEach hm hsees (.none h.evaluate m 0 m.current) hss
  rwa [bind_thenStep_none] at hrun

/-! ### Expressions -/

theorem MatchesAt.evaluate_succ (h : MatchesAt D D' rules n)
    (hrules : rules.lookup = .byDistance) : EvaluatesAt D D' rules (n + 1) := by
  intro image m m' σ e e' hm hsees he
  -- Each node is one step of the bound on both sides.
  refine .delay ?_ (isUnfinished_outOfFuel m')
  cases he with
  | literal =>
    simp only [Exec.evaluate]
    exact .pure hm (.of_plain (Value.plain_ofLiteral _))
  | group hinner =>
    simp only [Exec.evaluate]
    exact h.evaluate hm hsees hinner
  | unary hoperand =>
    simp only [Exec.evaluate]
    apply Matches.bind (h.evaluate hm hsees hoperand)
    intro image₁ m₁ m₁' value value' _ hm₁ hvalue
    exact .lift hm₁ (Operator.same_unary rfl hvalue.similar).embedded
  | binary hleft hright =>
    simp only [Exec.evaluate]
    apply Matches.bind (h.evaluate hm hsees hleft)
    intro image₁ m₁ m₁' left left' honward₁ hm₁ hleft
    apply Matches.bind (h.evaluate hm₁ (hsees.onward honward₁) hright)
    intro image₂ m₂ m₂' right right' honward₂ hm₂ hright
    -- The left value has been carried along while the right operand was evaluated.
    have hleft₂ := (hleft.extend honward₂.extends).similar
    exact .lift hm₂ (Operator.same_binary rfl hleft₂ hright.similar).embedded
  | logical hleft hright =>
    simp only [Exec.evaluate]
    apply Matches.bind (h.evaluate hm hsees hleft)
    intro image₁ m₁ m₁' left left' honward₁ hm₁ hleft
    simp only [Operator.decides_similar rfl hleft.similar]
    -- Values that correspond decide alike.
    split
    · exact .pure hm₁ hleft
    · exact h.evaluate hm₁ (hsees.onward honward₁) hright
  | read hplace =>
    simp only [Exec.evaluate]
    exact .readVariable hrules hm hsees hplace
  | assign hplace hvalue =>
    simp only [Exec.evaluate]
    apply Matches.bind (h.evaluate hm hsees hvalue)
    intro image₁ m₁ m₁' value value' honward₁ hm₁ hvalue
    apply Matches.bind
      -- Both sides find the frame of the variable, each at its own distance.
      (Matches.assignVariable hrules hm₁ (hsees.onward honward₁) hplace hvalue)
    intro image₂ m₂ m₂' _ _ honward₂ hm₂ _
    exact .pure hm₂ (hvalue.extend honward₂.extends)
  | call hcallee harguments =>
    simp only [Exec.evaluate]
    apply Matches.bind (h.evaluate hm hsees hcallee)
    intro image₁ m₁ m₁' callee callee' honward₁ hm₁ hcallee
    apply Matches.bind (h.evaluateEach hm₁ (hsees.onward honward₁) harguments)
    intro image₂ m₂ m₂' values values' honward₂ hm₂ hvalues
    -- The checks look at the number of arguments and at the depth, which are the same.
    rw [hvalues.length_eq]
    apply Matches.bind (Matches.checkCall hm₂ hcallee.similar.arity? _ _)
    intro image₃ m₃ m₃' _ _ honward₃ hm₃ _
    apply Matches.asCall
    have hcallee₃ := hcallee.extend (honward₂.trans honward₃).extends
    exact h.call (hm₃.setDepth (congrArg (· + 1) hm₃.depth)) hcallee₃
      (hvalues.extend honward₃.extends)
  | get hobject =>
    simp only [Exec.evaluate]
    apply Matches.bind (h.evaluate hm hsees hobject)
    intro image₁ m₁ m₁' value value' _ hm₁ hvalue
    -- Instances correspond by their identity, so they have the same fields.
    cases hvalue with
    | object hid hclass => exact .getProperty hm₁ (.object hid hclass) _
    | _ => exact .fail hm₁ _ _
  | set hobject hvalue =>
    simp only [Exec.evaluate]
    apply Matches.bind (h.evaluate hm hsees hobject)
    intro image₁ m₁ m₁' owner owner' honward₁ hm₁ howner
    cases howner with
    | object hid hclass =>
      apply Matches.bind (h.evaluate hm₁ (hsees.onward honward₁) hvalue)
      intro image₂ m₂ m₂' value value' honward₂ hm₂ hvalue
      apply Matches.bind (Matches.setField hm₂ hid _ hvalue)
      intro image₃ m₃ m₃' _ _ honward₃ hm₃ _
      exact .pure hm₃ (hvalue.extend honward₃.extends)
    | _ => exact .fail hm₁ _ _
  | this hplace =>
    simp only [Exec.evaluate]
    exact .readResolved hm hsees hplace
  | super hplace =>
    simp only [Exec.evaluate]
    exact .getSuper hm hsees hplace _

theorem MatchesAt.evaluateEach_succ (h : MatchesAt D D' rules n)
    (hm : MachineEmbedded D D' image m m')
    (hsees : Sees (m.into m' image) σ m.current m'.current) {es es' : List Expr}
    (hes : ExprEachInset (InPlace D D') σ es es') :
    Matches D D' (n + 1) image m m' (ValuesEmbedded D D')
      (Exec.evaluateEach rules (n + 1) es m) fun j => Exec.evaluateEach rules j es' m' := by
  refine .delay ?_ (isUnfinished_outOfFuel m')
  cases hes with
  | nil =>
    simp only [Exec.evaluateEach]
    exact .pure hm .nil
  | cons he hrest =>
    simp only [Exec.evaluateEach]
    apply Matches.bind (h.evaluate hm hsees he)
    intro image₁ m₁ m₁' value value' honward₁ hm₁ hvalue
    apply Matches.bind (h.evaluateEach hm₁ (hsees.onward honward₁) hrest)
    intro image₂ m₂ m₂' values values' honward₂ hm₂ hvalues
    exact .pure hm₂ (.cons (hvalue.extend honward₂.extends) hvalues)

/-! ### Calls -/

theorem Matches.bindParameters (parameters : List Token) {frame frame' : Nat}
    {arguments arguments' : List Value} (hm : MachineEmbedded D D' image m m')
    (hsees : Sees (m.into m' image) σ frame frame') (hσ : σ 0 = 0)
    (harguments : ValuesEmbedded D D' (m.into m' image) arguments arguments') :
    Matches D D' n image m m' (fun _ _ _ => True)
      (Exec.defineEach frame (parameters.zip arguments) m)
      fun _ => Exec.defineEach frame' (parameters.zip arguments') m' := by
  induction parameters generalizing image m m' arguments arguments' with
  | nil => exact .pure hm trivial
  | cons parameter rest ih =>
    cases harguments with
    | nil => exact .pure hm trivial
    | cons hvalue hvalues =>
      apply Matches.bind (.defineIn hm hsees.lt (hsees.image_eq hσ) parameter.lexeme hvalue)
      intro image₁ m₁ m₁' _ _ honward hm₁ _
      exact ih hm₁ (hsees.extend honward.extends) (ValuesEmbedded.extend hvalues honward.extends)

theorem Matches.callResult (hm : MachineEmbedded D D' image m m') {f f' : Function}
    (hf : FunctionEmbedded D D' (m.into m' image) true f f') {flow flow' : Flow}
    (hflow : FlowEmbedded D D' (m.into m' image) flow flow') (line : Nat) :
    Matches D D' n image m m' (ValueEmbedded D D') (Exec.callResult f flow line m)
      fun _ => Exec.callResult f' flow' line m' := by
  unfold Exec.callResult
  rw [hf.isInitializer]
  cases f.isInitializer with
  | false => exact .pure hm hflow.result
  | true =>
    obtain ⟨σ, -, hsees⟩ := hf.declaration
    have hfound := hm.getHere hsees.lt "this" line
    have hclosure : f'.closure = image f.closure := hf.closure rfl
    rw [← hclosure] at hfound
    exact .get_bind (.lift hm hfound)

theorem MatchesAt.callFunction_succ (h : MatchesAt D D' rules n)
    (hm : MachineEmbedded D D' image m m') {f f' : Function} {arguments arguments' : List Value}
    {line : Nat} (hf : FunctionEmbedded D D' (m.into m' image) true f f')
    (harguments : ValuesEmbedded D D' (m.into m' image) arguments arguments') :
    Matches D D' (n + 1) image m m' (ValueEmbedded D D')
      (Exec.callFunction rules (n + 1) f arguments line m)
      fun j => Exec.callFunction rules j f' arguments' line m' := by
  refine .delay ?_ (isUnfinished_outOfFuel m')
  obtain ⟨σ, hcode, hsees⟩ := hf.declaration
  simp only [Exec.callFunction, bindArguments, bind_assoc, pure_bind]
  generalize hdeclaration : f.declaration = d at hcode ⊢
  generalize hdeclaration' : f'.declaration = d' at hcode ⊢
  rw [if_pos rfl] at hcode
  cases hcode with
  | @mk _ _ parameters body body' hbody =>
    apply Matches.bind (Matches.newFrame hm f.closure f'.closure)
    rintro image₁ m₁ m₁' frame frame' honward₁ hm₁ ⟨hW, rfl, rfl⟩
    have hinner : Sees (m₁.into m₁' image₁) σ.enter m.frames.next m'.frames.next := by
      rw [hW]
      exact hsees.child
    apply Matches.bind (Matches.bindParameters parameters hm₁ hinner rfl
      (harguments.extend honward₁.extends))
    intro image₂ m₂ m₂' _ _ honward₂ hm₂ _
    have hthere := hinner.extend honward₂.extends
    have hrun := h.executeEach_plain (hm₂.setCurrent m.frames.next m'.frames.next) hthere hbody
    apply Matches.bind (Matches.inFrame hrun)
    intro image₃ m₃ m₃' flow flow' honward₃ hm₃ hflow
    have honward := (honward₁.trans honward₂).trans honward₃
    exact .callResult hm₃ (hf.extend honward.extends) hflow line

theorem MatchesAt.call_succ (h : MatchesAt D D' rules n) (hm : MachineEmbedded D D' image m m')
    {callee callee' : Value} {arguments arguments' : List Value} {line : Nat}
    (hcallee : ValueEmbedded D D' (m.into m' image) callee callee')
    (harguments : ValuesEmbedded D D' (m.into m' image) arguments arguments') :
    Matches D D' (n + 1) image m m' (ValueEmbedded D D')
      (Exec.call rules (n + 1) callee arguments line m)
      fun j => Exec.call rules j callee' arguments' line m' := by
  refine .delay ?_ (isUnfinished_outOfFuel m')
  cases hcallee with
  -- The functions that are built in do the same to both machines.
  | native =>
    simp only [Exec.call]
    exact .callNative hm _ harguments line
  | function hf =>
    simp only [Exec.call]
    exact h.callFunction hm hf harguments
  | @«class» c c' hclass =>
    simp only [Exec.call]
    apply Matches.bind (Matches.newInstance hm c c')
    -- Both classes make an instance with the same number.
    rintro image₁ m₁ m₁' owner owner' honward₁ hm₁ ⟨-, id, rfl, rfl⟩
    have howner₁ : ValueEmbedded D D' (m₁.into m₁' image₁) (.object ⟨id, c⟩) (.object ⟨id, c'⟩) :=
      .object rfl (ClassEmbedded.extend hclass honward₁.extends)
    have hfound := hclass.findMethod? initializerName
    -- The initializer is looked up in both, and found in both or in neither.
    unfold Class.initializer?
    generalize c.findMethod? initializerName = f at hfound ⊢
    generalize c'.findMethod? initializerName = f' at hfound ⊢
    cases hfound with
    | none => exact .pure hm₁ howner₁
    | some hf =>
      apply Matches.bind (Matches.bindMethod hm₁ (hf.extend honward₁.extends) howner₁)
      intro image₂ m₂ m₂' g g' honward₂ hm₂ hg
      apply Matches.bind
        (h.callFunction hm₂ hg (harguments.extend (honward₁.trans honward₂).extends))
      intro image₃ m₃ m₃' _ _ honward₃ hm₃ _
      exact .pure hm₃ (howner₁.extend (honward₂.trans honward₃).extends)
  | _ =>
    simp only [Exec.call]
    exact .fail hm _ line

/-! ### Classes -/

theorem Matches.define (hm : MachineEmbedded D D' image m m')
    (hsees : Sees (m.into m' image) σ m.current m'.current) (hσ : σ 0 = 0) (name : String)
    {value value' : Value} (hvalue : ValueEmbedded D D' (m.into m' image) value value') :
    Matches D D' n image m m' (fun _ _ _ => True) (Exec.define name value m)
      fun _ => Exec.define name value' m' :=
  .defineIn hm hsees.lt (hsees.image_eq hσ) name hvalue

theorem Matches.superclassOf (hrules : rules.lookup = .byDistance)
    (hm : MachineEmbedded D D' image m m')
    (hsees : Sees (m.into m' image) σ m.current m'.current)
    {superclass superclass' : Option Occurrence}
    (hplace : Option.Rel (InPlace D D' σ .read) superclass superclass') :
    Matches D D' n image m m' (fun W parent parent' => parent.isSome = superclass.isSome ∧
        Option.Rel (ClassEmbedded D D' W) parent parent')
      (Exec.superclassOf rules superclass m) fun _ => Exec.superclassOf rules superclass' m' := by
  cases hplace with
  | none => exact .pure hm ⟨rfl, .none⟩
  | some hplace =>
    simp only [Exec.superclassOf, map_eq_pure_bind, bind_assoc]
    apply Matches.bind (.readVariable hrules hm hsees hplace)
    intro image₁ m₁ m₁' value value' _ hm₁ hvalue
    rw [hplace.line_eq]
    cases hvalue with
    | «class» hclass => exact .pure hm₁ ⟨rfl, .some hclass⟩
    | _ => exact .error (.const _) hm₁.sink

/-- The frame that methods see. -/
theorem Matches.methodFrame (hm : MachineEmbedded D D' image m m')
    (hsees : Sees (m.into m' image) σ m.current m'.current) {parent parent' : Option Class}
    (hparent : Option.Rel (ClassEmbedded D D' (m.into m' image)) parent parent') :
    Matches D D' n image m m'
      (fun W frame frame' => Sees W (if parent.isSome then σ.enter else σ) frame frame')
      (Exec.methodFrame parent m) fun _ => Exec.methodFrame parent' m' := by
  cases hparent with
  | none =>
    apply Matches.get_bind
    exact .pure hm hsees
  | some hclass =>
    simp only [Exec.methodFrame]
    apply Matches.bind (.newInnerFrame hm)
    rintro image₁ m₁ m₁' frame frame' honward₁ hm₁ ⟨hW, rfl, rfl⟩
    have hinner : Sees (m₁.into m₁' image₁) σ.enter m.frames.next m'.frames.next := by
      rw [hW]
      exact hsees.child
    apply Matches.bind (.defineIn hm₁ hinner.lt (hinner.image_eq rfl) "super"
      (.class (ClassEmbedded.extend hclass honward₁.extends)))
    intro image₂ m₂ m₂' _ _ honward₂ hm₂ _
    exact .pure hm₂ (hinner.extend honward₂.extends)

/-- Methods see the frame that they are made in. -/
theorem Matches.addMethods (hm : MachineEmbedded D D' image m m') {frame frame' : Nat}
    (hsees : Sees (m.into m' image) σ frame frame') {ds ds' : List FunctionDecl}
    (hds : FunctionEachInset (InPlace D D') σ.enter ds ds') {methods methods' : Bindings Function}
    (hmethods : ∀ name, Option.Rel (FunctionEmbedded D D' (m.into m' image) false)
      (methods.find? name) (methods'.find? name)) :
    Matches D D' n image m m' (fun W all all' => ∀ name,
        Option.Rel (FunctionEmbedded D D' W false) (all.find? name) (all'.find? name))
      (Exec.addMethods frame ds methods m) fun _ => Exec.addMethods frame' ds' methods' m' := by
  induction ds generalizing image m m' ds' methods methods' with
  | nil =>
    cases hds
    exact .pure hm hmethods
  | cons d ds ih =>
    cases hds with
    | @cons _ _ d' _ ds' hd hrest =>
      have hinit : d'.isInitializer = d.isInitializer := by
        unfold FunctionDecl.isInitializer
        rw [hd.name_eq]
      simp only [Exec.addMethods_cons, hinit, hd.name_eq]
      apply Matches.bind (.newFunction hm d d' frame frame' d.isInitializer)
      rintro image₁ m₁ m₁' f f' honward hm₁ ⟨-, id, rfl, rfl⟩
      have hsees₁ := hsees.extend honward.extends
      apply ih hm₁ hsees₁ hrest
      intro name
      rw [Bindings.find?_insert, Bindings.find?_insert]
      split
      · exact .some ⟨rfl, fun hbound => absurd hbound Bool.false_ne_true, rfl, σ, hd, hsees₁⟩
      · exact Option.Rel.imp (hmethods name) fun _ _ hf => hf.extend honward.extends

/-- A class inherits from its superclass and binds its own methods. -/
theorem Matches.finishClass (hm : MachineEmbedded D D' image m m')
    (hsees : Sees (m.into m' image) σ m.current m'.current) (hσ : σ 0 = 0) (name : Token)
    {parent parent' : Option Class}
    (hparent : Option.Rel (ClassEmbedded D D' (m.into m' image)) parent parent')
    {methods methods' : List FunctionDecl}
    (hmethods : FunctionEachInset (InPlace D D') (σ.enterClass parent.isSome) methods methods') :
    Matches D D' n image m m' (fun _ _ _ => True) (Exec.finishClass name methods parent m)
      fun _ => Exec.finishClass name methods' parent' m' := by
  unfold Exec.finishClass
  apply Matches.bind (.methodFrame hm hsees hparent)
  intro image₁ m₁ m₁' frame frame' honward₁ hm₁ hframe
  have hmethods₁ : FunctionEachInset (InPlace D D')
      (if parent.isSome then σ.enter else σ).enter methods methods' := by
    cases parent with
    | none => exact hmethods
    | some _ => exact hmethods
  apply Matches.bind (.addMethods hm₁ hframe hmethods₁ fun _ => .none)
  intro image₂ m₂ m₂' own own' honward₂ hm₂ hown
  apply Matches.bind (.newIdentity hm₂)
  rintro image₃ m₃ m₃' id id' honward₃ hm₃ ⟨hW, rfl⟩
  have honward := (honward₁.trans honward₂).trans honward₃
  have hlayer : LayerEmbedded D D' (m₃.into m₃' image₃) ⟨id', name.lexeme, own⟩
      ⟨id', name.lexeme, own'⟩ := by
    refine ⟨rfl, rfl, ?_⟩
    rw [hW]
    exact hown
  have hinherited : List.Forall₂ (LayerEmbedded D D' (m₃.into m₃' image₃))
      ((parent.map Class.chain).getD []) ((parent'.map Class.chain).getD []) := by
    cases hparent with
    | none => exact .nil
    | some hclass => exact ClassEmbedded.extend hclass honward.extends
  exact .define hm₃ (hsees.onward honward) hσ _ (.class (.cons hlayer hinherited))

theorem Matches.declareClass (hrules : rules.lookup = .byDistance)
    (hm : MachineEmbedded D D' image m m')
    (hsees : Sees (m.into m' image) σ m.current m'.current) (hσ : σ 0 = 0) (name : Token)
    {superclass superclass' : Option Occurrence}
    (hplace : Option.Rel (InPlace D D' σ .read) superclass superclass')
    {methods methods' : List FunctionDecl}
    (hmethods : FunctionEachInset (InPlace D D') (σ.enterClass superclass.isSome) methods methods') :
    Matches D D' n image m m' (fun _ _ _ => True)
      (Exec.declareClass rules name superclass methods m)
      fun _ => Exec.declareClass rules name superclass' methods' m' := by
  rw [Exec.declareClass_eq, Exec.declareClass_eq]
  apply Matches.bind (.define hm hsees hσ _ .nil)
  intro image₁ m₁ m₁' _ _ honward₁ hm₁ _
  have hsees₁ := hsees.onward honward₁
  apply Matches.bind (.superclassOf hrules hm₁ hsees₁ hplace)
  rintro image₂ m₂ m₂' parent parent' honward₂ hm₂ ⟨hsome, hparent⟩
  rw [← hsome] at hmethods
  exact .finishClass hm₂ (hsees₁.onward honward₂) hσ name hparent hmethods

end Lox
