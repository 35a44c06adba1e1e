import Lox.Proofs.Execution.Evaluation
import Lox.Proofs.Likeness.Values

/-!
# Code that looks alike does the same

In machines that look alike, code that looks alike is executed alike, provided that the
frames around the current one follow the surroundings of the code.  As for soundness,
all functions of the evaluator are taken together, by induction on the bound of the
recursion.
-/

namespace Lox

variable {K : Likeness} {line : Nat → Nat → Prop} {W W₁ : World} {m m₁ m' : Machine}
  {Γ : Surroundings} {rules : Rules} {fuel : Nat}

theorem Follows.onward (h : Follows W m.frames Γ m.current) (honward : Onward W m W₁ m₁) :
    Follows W₁ m₁.frames Γ m₁.current := by
  rw [honward.current]
  exact h.evolve honward.evolves

theorem Follows.current (h : Follows W m.frames Γ m.current) : W m.current = Γ 0 :=
  h.renamings 0 _ rfl

inductive FlowLike (K : Likeness) (W : World) (m : Machine) : Flow → Flow → Prop where
  | normal : FlowLike K W m .normal .normal
  | breaking : FlowLike K W m .breaking .breaking
  | continuing : FlowLike K W m .continuing .continuing
  | returning {value value' : Value} :
      ValueLike K W m.frames value value' → FlowLike K W m (.returning value) (.returning value')

theorem FlowLike.result {flow flow' : Flow} (h : FlowLike K W m flow flow') :
    ValueLike K W m.frames flow.result flow'.result := by
  cases h with
  | returning hvalue => exact hvalue
  | _ => exact .nil

theorem FlowLike.setCurrent {flow flow' : Flow} {f : Nat} (h : FlowLike K W m flow flow') :
    FlowLike K W { m with current := f } flow flow' := by
  cases h with
  | normal => exact .normal
  | breaking => exact .breaking
  | continuing => exact .continuing
  | returning hvalue => exact .returning hvalue

/-- Execution looks alike, with this bound of the recursion. -/
structure LikeAt (K : Likeness) (line : Nat → Nat → Prop) (rules : Rules) (fuel : Nat) : Prop where
  evaluate : ∀ {W m m' Γ e e'}, MachineLike K line W m m' → Follows W m.frames Γ m.current →
    ExprLike K Γ e e' →
    Alike K line W m (Alike.Yields K) (Exec.evaluate rules fuel e m)
      (Exec.evaluate rules fuel e' m')
  evaluateEach : ∀ {W m m' Γ es es'}, MachineLike K line W m m' →
    Follows W m.frames Γ m.current → ExprEachLike K Γ es es' →
    Alike K line W m (fun W₁ m₁ => ValuesLike K W₁ m₁.frames) (Exec.evaluateEach rules fuel es m)
      (Exec.evaluateEach rules fuel es' m')
  call : ∀ {W m m' callee callee' arguments arguments' n n'}, MachineLike K line W m m' →
    ValueLike K W m.frames callee callee' → ValuesLike K W m.frames arguments arguments' →
    line n n' →
    Alike K line W m (Alike.Yields K) (Exec.call rules fuel callee arguments n m)
      (Exec.call rules fuel callee' arguments' n' m')
  callFunction : ∀ {W m m' f f' arguments arguments' n n'}, MachineLike K line W m m' →
    ClosureLike K W m.frames true f f' → ValuesLike K W m.frames arguments arguments' →
    line n n' →
    Alike K line W m (Alike.Yields K) (Exec.callFunction rules fuel f arguments n m)
      (Exec.callFunction rules fuel f' arguments' n' m')
  execute : ∀ {W m m' Γ s s'}, MachineLike K line W m m' → Follows W m.frames Γ m.current →
    StmtLike K Γ s s' →
    Alike K line W m (FlowLike K) (Exec.execute rules fuel s m) (Exec.execute rules fuel s' m')
  executeEach : ∀ {W m m' Γ ss ss'}, MachineLike K line W m m' →
    Follows W m.frames Γ m.current → StmtEachLike K Γ ss ss' →
    Alike K line W m (FlowLike K) (Exec.executeEach rules fuel ss m)
      (Exec.executeEach rules fuel ss' m')
  iterate : ∀ {W m m' Γ condition condition' body body' increment increment'},
    MachineLike K line W m m' → Follows W m.frames Γ m.current →
    ExprLike K Γ condition condition' → StmtLike K Γ body body' →
    ExprIn?Like K Γ increment increment' →
    Alike K line W m (FlowLike K) (Exec.iterate rules fuel condition body increment m)
      (Exec.iterate rules fuel condition' body' increment' m')

/-! ### Expressions -/

theorem LikeAt.evaluate_succ (h : LikeAt K line rules fuel) (hrules : rules.lookup = .byDistance)
    (hm : MachineLike K line W m m') (hfollows : Follows W m.frames Γ m.current) {e e' : Expr}
    (he : ExprLike K Γ e e') :
    Alike K line W m (Alike.Yields K) (Exec.evaluate rules (fuel + 1) e m)
      (Exec.evaluate rules (fuel + 1) e' m') := by
  cases he with
  | @literal value =>
    simp only [Exec.evaluate]
    apply Alike.pure hm
    -- A literal is the same on both sides, and is no code.
    exact .of_plain (Value.plain_ofLiteral value)
  | group hinner => exact h.evaluate hm hfollows hinner
  | unary hoperator hoperand =>
    -- The operators are of one kind, and on lines that correspond.
    obtain ⟨hkind, -, hline⟩ := hm.faithful.token _ _ hoperator
    simp only [Exec.evaluate]
    apply Alike.bind (h.evaluate hm hfollows hoperand)
    intro W₁ m₁ m₁' value value' _ hm₁ hvalue
    exact Alike.lift hm₁ ((Operator.same_unary hkind hvalue.similar).like hline)
  | binary hleft hoperator hright =>
    obtain ⟨hkind, -, hline⟩ := hm.faithful.token _ _ hoperator
    simp only [Exec.evaluate]
    apply Alike.bind (h.evaluate hm hfollows hleft)
    intro W₁ m₁ m₁' left left' honward₁ hm₁ hleft
    apply Alike.bind (h.evaluate hm₁ (hfollows.onward honward₁) hright)
    intro W₂ m₂ m₂' right right' honward₂ hm₂ hright
    -- What the left operand stands for has gone on while the right one was evaluated.
    have hleft₂ := (hleft.evolve honward₂.evolves).similar
    exact Alike.lift hm₂ ((Operator.same_binary hkind hleft₂ hright.similar).like hline)
  | logical hleft hoperator hright =>
    obtain ⟨hkind, -, -⟩ := hm.faithful.token _ _ hoperator
    simp only [Exec.evaluate]
    apply Alike.bind (h.evaluate hm hfollows hleft)
    intro W₁ m₁ m₁' left left' honward₁ hm₁ hleft
    -- Values that look alike decide alike.
    rw [Operator.decides_similar hkind hleft.similar]
    split
    · exact Alike.pure hm₁ hleft
    · exact h.evaluate hm₁ (hfollows.onward honward₁) hright
  | read hplace => exact Alike.readVariable hrules hm hfollows hplace
  | assign hplace hvalue =>
    simp only [Exec.evaluate]
    apply Alike.bind (h.evaluate hm hfollows hvalue)
    intro W₁ m₁ m₁' value value' honward₁ hm₁ hvalue
    -- The place where the value goes is found on both sides at one distance.
    apply Alike.bind (Alike.assignVariable hrules hm₁ (hfollows.onward honward₁) hplace hvalue)
    intro W₂ m₂ m₂' _ _ honward₂ hm₂ _
    exact Alike.pure hm₂ (hvalue.evolve honward₂.evolves)
  | call hcallee hparen harguments =>
    obtain ⟨-, -, hline⟩ := hm.faithful.token _ _ hparen
    simp only [Exec.evaluate]
    apply Alike.bind (h.evaluate hm hfollows hcallee)
    intro W₁ m₁ m₁' callee callee' honward₁ hm₁ hcallee
    apply Alike.bind (h.evaluateEach hm₁ (hfollows.onward honward₁) harguments)
    intro W₂ m₂ m₂' values values' honward₂ hm₂ hvalues
    -- Both sides pass the checks or fail them, at lines that correspond.
    rw [hvalues.length_eq]
    apply Alike.bind (Alike.checkCall hm₂ hcallee.similar.arity? _ hline)
    intro W₃ m₃ m₃' _ _ honward₃ hm₃ _
    refine Alike.asCall ?_ fun _ _ _ _ _ hpost => hpost
    -- The call is counted on both sides.
    have hdepth : MachineLike K line W₃ { m₃ with depth := m₃.depth + 1 }
        { m₃' with depth := m₃'.depth + 1 } := hm₃.setDepth (congrArg (· + 1) hm₃.depth)
    have hcallee₃ := hcallee.evolve (honward₂.evolves.trans honward₃.evolves)
    exact h.call hdepth hcallee₃ (hvalues.evolve honward₃.evolves) hline
  | get hobject hname =>
    obtain ⟨-, -, hline⟩ := hm.faithful.token _ _ hname
    simp only [Exec.evaluate]
    apply Alike.bind (h.evaluate hm hfollows hobject)
    intro W₁ m₁ m₁' value value' _ hm₁ hvalue
    -- A property is asked of two instances with one identity, or of no instances at all.
    cases hvalue with
    | object hid hclass => exact Alike.getProperty hm₁ (.object hid hclass) hname
    | _ => exact Alike.fail hm₁ _ hline
  | set hobject hname hvalue =>
    obtain ⟨-, hlexeme, hline⟩ := hm.faithful.token _ _ hname
    simp only [Exec.evaluate]
    apply Alike.bind (h.evaluate hm hfollows hobject)
    intro W₁ m₁ m₁' owner owner' honward₁ hm₁ howner
    cases howner with
    | object hid hclass =>
      apply Alike.bind (h.evaluate hm₁ (hfollows.onward honward₁) hvalue)
      intro W₂ m₂ m₂' value value' honward₂ hm₂ hvalue
      -- The field has one name on both sides.
      simp only [hlexeme]
      apply Alike.bind (Alike.setField hm₂ hid _ hvalue)
      intro W₃ m₃ m₃' _ _ honward₃ hm₃ _
      exact Alike.pure hm₃ (hvalue.evolve honward₃.evolves)
    | _ => exact Alike.fail hm₁ _ hline
  | this hplace => exact Alike.readResolved hm hfollows hplace
  | super hplace hmethod => exact Alike.getSuper hm hfollows hplace hmethod

theorem LikeAt.evaluateEach_succ (h : LikeAt K line rules fuel) (hm : MachineLike K line W m m')
    (hfollows : Follows W m.frames Γ m.current) {es es' : List Expr} (hes : ExprEachLike K Γ es es') :
    Alike K line W m (fun W₁ m₁ => ValuesLike K W₁ m₁.frames)
      (Exec.evaluateEach rules (fuel + 1) es m) (Exec.evaluateEach rules (fuel + 1) es' m') := by
  cases hes with
  | nil => exact Alike.pure hm .nil
  | cons he hrest =>
    simp only [Exec.evaluateEach]
    apply Alike.bind (h.evaluate hm hfollows he)
    intro W₁ m₁ m₁' value value' honward₁ hm₁ hvalue
    apply Alike.bind (h.evaluateEach hm₁ (hfollows.onward honward₁) hrest)
    intro W₂ m₂ m₂' values values' honward₂ hm₂ hvalues
    exact Alike.pure hm₂ (.cons (hvalue.evolve honward₂.evolves) hvalues)

/-! ### Calls -/

/-- Parameters are bound under the names that the renaming of the frame yields. -/
theorem Alike.bindParameters {f : Nat} {parameters parameters' : List Token}
    {arguments arguments' : List Value} (hm : MachineLike K line W m m')
    (hparameters : List.Forall₂ (K.binder (W f)) parameters parameters')
    (harguments : ValuesLike K W m.frames arguments arguments') :
    Alike K line W m (fun W₁ _ _ _ => W₁ = W)
      (Exec.defineEach f (parameters.zip arguments) m)
      (Exec.defineEach f (parameters'.zip arguments') m') := by
  induction hparameters generalizing arguments arguments' m m' with
  | nil => exact Alike.pure hm rfl
  | cons hparameter _ ih =>
    cases harguments with
    | nil => exact Alike.pure hm rfl
    | cons hvalue hvalues =>
      have hname := hm.faithful.binder _ _ _ hparameter
      apply Alike.bind (Alike.defineIn hm hname hvalue)
      rintro W₁ m₁ m₁' _ _ honward hm₁ rfl
      exact ih hm₁ (ValuesLike.evolve honward.evolves hvalues)

/-- In the frame for the parameters of a function its body goes on in its own surroundings. -/
theorem Alike.bindArguments (hm : MachineLike K line W m m') {f f' : Function}
    {arguments arguments' : List Value} (hf : ClosureLike K W m.frames true f f')
    (harguments : ValuesLike K W m.frames arguments arguments') :
    Alike K line W m (fun W₁ m₁ frame frame' => frame' = frame ∧
        ∃ Γ, Follows W₁ m₁.frames Γ frame ∧
          StmtEachLike K Γ f.declaration.body f'.declaration.body)
      (Exec.bindArguments f arguments m) (Exec.bindArguments f' arguments' m') := by
  obtain ⟨Γ, hcode, hfollows⟩ := hf.declaration
  unfold Exec.bindArguments
  rw [hf.closure]
  generalize f.declaration = d at hcode ⊢
  generalize f'.declaration = d' at hcode ⊢
  cases hcode with
  | @mk _ σ _ _ parameters parameters' body body' hσ _ hparameters hbody =>
    apply Alike.bind (Alike.newFrame hm hfollows.lt hσ)
    rintro W₁ m₁ m₁' frame frame' honward₁ hm₁ ⟨rfl, hframes₁, rfl, rfl⟩
    have hinner : Follows (W.add m.frames σ) m₁.frames (Γ.enter σ) m.frames.next := by
      rw [hframes₁]
      exact hfollows.child σ
    have hparameters₁ :
        List.Forall₂ (K.binder (W.add m.frames σ m.frames.next)) parameters parameters' := by
      rw [hinner.renamings 0 _ rfl]
      exact hparameters
    apply Alike.bind (Alike.bindParameters hm₁ hparameters₁ (harguments.evolve honward₁.evolves))
    rintro W₂ m₂ m₂' _ _ honward₂ hm₂ rfl
    exact Alike.pure hm₂ ⟨rfl, Γ.enter σ, hinner.evolve honward₂.evolves, hbody⟩

theorem Alike.callResult (hm : MachineLike K line W m m') {f f' : Function}
    (hf : ClosureLike K W m.frames true f f') {flow flow' : Flow}
    (hflow : FlowLike K W m flow flow') {n n' : Nat} (hline : line n n') :
    Alike K line W m (Alike.Yields K) (Exec.callResult f flow n m)
      (Exec.callResult f' flow' n' m') := by
  unfold Exec.callResult
  rw [hf.isInitializer]
  cases f.isInitializer with
  | false => exact Alike.pure hm hflow.result
  | true =>
    obtain ⟨Γ, -, hfollows⟩ := hf.declaration
    have hhere : Follows W { m with current := f.closure }.frames Γ f.closure := hfollows
    have hfound := (hm.setCurrent f.closure).getAt hhere 0 (Γ 0).this.symm hline
    rw [hf.closure]
    exact Alike.lift hm hfound

theorem LikeAt.callFunction_succ (h : LikeAt K line rules fuel) (hm : MachineLike K line W m m')
    {f f' : Function} {arguments arguments' : List Value} {n n' : Nat}
    (hf : ClosureLike K W m.frames true f f')
    (harguments : ValuesLike K W m.frames arguments arguments') (hline : line n n') :
    Alike K line W m (Alike.Yields K) (Exec.callFunction rules (fuel + 1) f arguments n m)
      (Exec.callFunction rules (fuel + 1) f' arguments' n' m') := by
  simp only [Exec.callFunction]
  apply Alike.bind (Alike.bindArguments hm hf harguments)
  rintro W₁ m₁ m₁' frame frame' honward₁ hm₁ ⟨rfl, Γ, hinner, hbody⟩
  have hrun := h.executeEach (hm₁.setCurrent frame') hinner hbody
  apply Alike.bind (Alike.inFrame hm₁ hrun fun _ _ _ _ => FlowLike.setCurrent)
  intro W₂ m₂ m₂' flow flow' honward₂ hm₂ hflow
  have honward := honward₁.trans honward₂
  exact Alike.callResult hm₂ (hf.mono (.refl K) honward.evolves) hflow hline

theorem LikeAt.call_succ (h : LikeAt K line rules fuel) (hm : MachineLike K line W m m')
    {callee callee' : Value} {arguments arguments' : List Value} {n n' : Nat}
    (hcallee : ValueLike K W m.frames callee callee')
    (harguments : ValuesLike K W m.frames arguments arguments') (hline : line n n') :
    Alike K line W m (Alike.Yields K) (Exec.call rules (fuel + 1) callee arguments n m)
      (Exec.call rules (fuel + 1) callee' arguments' n' m') := by
  cases hcallee with
  | native => exact Alike.callNative hm _ harguments hline
  | function hf => exact h.callFunction hm hf harguments hline
  | @«class» c c' hclass =>
    simp only [Exec.call]
    apply Alike.bind (Alike.newInstance hm c c')
    rintro W₁ m₁ m₁' owner owner' honward₁ hm₁ ⟨rfl, -, hid, rfl, rfl⟩
    have howner₁ : ValueLike K W₁ m₁.frames (.object owner) (.object owner') :=
      .object hid (hclass.evolve honward₁.evolves)
    have hfound := hclass.findMethod? initializerName
    unfold Class.initializer?
    generalize owner.cls.findMethod? initializerName = f at hfound ⊢
    generalize owner'.cls.findMethod? initializerName = f' at hfound ⊢
    cases hfound with
    | none => exact Alike.pure hm₁ howner₁
    | some hf =>
      apply Alike.bind (Alike.bindMethod hm₁ (hf.mono (.refl K) honward₁.evolves) howner₁)
      intro W₂ m₂ m₂' g g' honward₂ hm₂ hg
      have hvalues₂ := harguments.evolve (honward₁.evolves.trans honward₂.evolves)
      apply Alike.bind (h.callFunction hm₂ hg hvalues₂ hline)
      intro W₃ m₃ m₃' _ _ honward₃ hm₃ _
      exact Alike.pure hm₃ (howner₁.evolve (honward₂.evolves.trans honward₃.evolves))
  | _ => exact Alike.fail hm _ hline

/-! ### Classes -/

theorem Alike.superclassOf (hrules : rules.lookup = .byDistance) (hm : MachineLike K line W m m')
    (hfollows : Follows W m.frames Γ m.current) {superclass superclass' : Option Occurrence}
    (hplace : Option.Rel (K.place Γ) superclass superclass') :
    Alike K line W m (fun W₁ m₁ parent parent' => parent.isSome = superclass.isSome ∧
        Option.Rel (ClassLike K W₁ m₁.frames) parent parent')
      (Exec.superclassOf rules superclass m) (Exec.superclassOf rules superclass' m') := by
  cases hplace with
  | none => exact Alike.pure hm ⟨rfl, .none⟩
  | some hplace =>
    have hline := hm.faithful.line _ _ _ hplace
    apply Alike.map
    apply Alike.bind (Alike.readVariable hrules hm hfollows hplace)
    intro W₁ m₁ m₁' value value' _ hm₁ hvalue
    cases hvalue with
    | «class» hclass => exact Alike.pure hm₁ ⟨rfl, .some hclass⟩
    | _ => exact Alike.fail hm₁ _ hline

theorem Alike.methodFrame (hm : MachineLike K line W m m')
    (hfollows : Follows W m.frames Γ m.current) {parent parent' : Option Class}
    (hparent : Option.Rel (ClassLike K W m.frames) parent parent') :
    Alike K line W m (fun W₁ m₁ frame frame' => frame' = frame ∧
        Follows W₁ m₁.frames (if parent.isSome then Γ.enter .same else Γ) frame)
      (Exec.methodFrame parent m) (Exec.methodFrame parent' m') := by
  cases hparent with
  | none =>
    apply Alike.get_bind
    exact Alike.pure hm ⟨hm.current, hfollows⟩
  | some hclass =>
    simp only [Exec.methodFrame]
    apply Alike.bind (Alike.newInnerFrame hm hfollows.lt hm.faithful.allowed)
    rintro W₁ m₁ m₁' frame frame' honward₁ hm₁ ⟨rfl, hframes₁, rfl, rfl⟩
    have hinner : Follows (W.add m.frames .same) m₁.frames (Γ.enter .same) m.frames.next := by
      rw [hframes₁]
      exact hfollows.child .same
    have hsuper : "super" = W.add m.frames .same m.frames.next "super" := by
      rw [hinner.renamings 0 _ rfl]
      rfl
    have hvalue := ValueLike.class (hclass.evolve honward₁.evolves)
    apply Alike.bind (Alike.defineIn hm₁ hsuper hvalue)
    rintro W₂ m₂ m₂' _ _ honward₂ hm₂ rfl
    exact Alike.pure hm₂ ⟨rfl, hinner.evolve honward₂.evolves⟩

/-- Methods see the frame that they are made in. -/
theorem Alike.addMethods (hm : MachineLike K line W m m') {frame : Nat}
    (hfollows : Follows W m.frames Γ frame) {ds ds' : List FunctionDecl}
    (hds : FunctionEachLike K (Γ.enter .same) ds ds') {methods methods' : Bindings Function}
    (hmethods : ∀ name, Option.Rel (ClosureLike K W m.frames false) (methods.find? name)
      (methods'.find? name)) :
    Alike K line W m (fun W₁ m₁ all all' => ∀ name,
        Option.Rel (ClosureLike K W₁ m₁.frames false) (all.find? name) (all'.find? name))
      (Exec.addMethods frame ds methods m) (Exec.addMethods frame ds' methods' m') := by
  -- The induction is on the declarations, with the methods made so far alike on both sides.
  induction ds generalizing W m m' ds' methods methods' with
  | nil =>
    cases hds with
    | nil => exact Alike.pure hm hmethods
  | cons d ds ih =>
    cases hds with
    | @cons _ _ d' _ ds' hd hrest =>
      obtain ⟨-, hlexeme, -⟩ := hm.faithful.token _ _ hd.name
      have hinit : d'.isInitializer = d.isInitializer := by
        unfold FunctionDecl.isInitializer
        rw [hlexeme]
      -- Whether a method is an initializer is a matter of its name, which is kept.
      rw [Exec.addMethods_cons, Exec.addMethods_cons, hinit]
      apply Alike.bind (Alike.newFunction hm d d' frame d.isInitializer)
      rintro W₁ m₁ m₁' f f' honward hm₁
        ⟨rfl, hframes, hid, rfl, rfl, hclosure, hclosure', hinit, hinit'⟩
      rw [hlexeme]
      have hfollows₁ := hfollows.evolve honward.evolves
      apply ih hm₁ hfollows₁ hrest
      intro name
      rw [Bindings.find?_insert, Bindings.find?_insert]
      split
      · -- The new closures have the same code and stand in frames that follow each other.
        apply Option.Rel.some
        refine ⟨hid, hclosure'.trans hclosure.symm, hinit'.trans hinit.symm, Γ, hd, ?_⟩
        rw [hclosure]
        exact hfollows₁
      · exact Option.Rel.imp (hmethods name) fun _ _ hf => hf.mono (.refl K) honward.evolves

/-- A class inherits from its superclass and binds its own methods. -/
theorem Alike.finishClass (hm : MachineLike K line W m m')
    (hfollows : Follows W m.frames Γ m.current) {name name' : Token}
    (hname : name'.lexeme = name.lexeme) (hsame : Γ 0 name.lexeme = name.lexeme)
    {parent parent' : Option Class} (hparent : Option.Rel (ClassLike K W m.frames) parent parent')
    {methods methods' : List FunctionDecl}
    (hmethods : FunctionEachLike K (Γ.enterClass parent.isSome) methods methods') :
    Alike K line W m (fun _ _ _ _ => True) (Exec.finishClass name methods parent m)
      (Exec.finishClass name' methods' parent' m') := by
  unfold Exec.finishClass
  apply Alike.bind (Alike.methodFrame hm hfollows hparent)
  rintro W₁ m₁ m₁' frame frame' honward₁ hm₁ ⟨rfl, hframe⟩
  -- The scope of `super` is there on both sides or on neither.
  have hmethods₁ : FunctionEachLike K
      ((if parent.isSome then Γ.enter .same else Γ).enter .same) methods methods' := by
    cases parent with
    | none => exact hmethods
    | some _ => exact hmethods
  apply Alike.bind (Alike.addMethods hm₁ hframe hmethods₁ fun _ => .none)
  intro W₂ m₂ m₂' own own' honward₂ hm₂ hown
  apply Alike.bind (Alike.newIdentity hm₂)
  rintro W₃ m₃ m₃' id id' honward₃ hm₃ ⟨rfl, hframes₃, rfl⟩
  have honward := (honward₁.trans honward₂).trans honward₃
  -- The new classes have the same number, and methods that are alike.
  have hlayer : LayerLike K W₃ m₃.frames ⟨id', name.lexeme, own⟩ ⟨id', name.lexeme, own'⟩ := by
    refine ⟨rfl, rfl, ?_⟩
    intro method
    rw [hframes₃]
    exact hown method
  -- What they inherit is what their superclasses are made of.
  have hinherited : List.Forall₂ (LayerLike K W₃ m₃.frames) ((parent.map Class.chain).getD [])
      ((parent'.map Class.chain).getD []) := by
    cases hparent with
    | none => exact .nil
    | some hclass => exact hclass.evolve honward.evolves
  -- The class is defined under a name that its frame keeps.
  have hdefined : name.lexeme = W₃ m₃.current name.lexeme := by
    rw [(hfollows.onward honward).current]
    exact hsame.symm
  rw [hname]
  apply Alike.weaken (Alike.define hm₃ hdefined (.class (.cons hlayer hinherited)))
  intros
  trivial

theorem Alike.declareClass (hrules : rules.lookup = .byDistance) (hm : MachineLike K line W m m')
    (hfollows : Follows W m.frames Γ m.current) {name name' : Token}
    (hname : name'.lexeme = name.lexeme) (hsame : Γ 0 name.lexeme = name.lexeme)
    {superclass superclass' : Option Occurrence}
    (hplace : Option.Rel (K.place Γ) superclass superclass')
    {methods methods' : List FunctionDecl}
    (hmethods : FunctionEachLike K (Γ.enterClass superclass.isSome) methods methods') :
    Alike K line W m (fun _ _ _ _ => True) (Exec.declareClass rules name superclass methods m)
      (Exec.declareClass rules name' superclass' methods' m') := by
  have hdefined : name.lexeme = W m.current name.lexeme := by
    rw [hfollows.current]
    exact hsame.symm
  rw [Exec.declareClass_eq, Exec.declareClass_eq, hname]
  apply Alike.bind (Alike.define hm hdefined .nil)
  rintro W₁ m₁ m₁' _ _ honward₁ hm₁ rfl
  have hfollows₁ := hfollows.onward honward₁
  apply Alike.bind (Alike.superclassOf hrules hm₁ hfollows₁ hplace)
  rintro W₂ m₂ m₂' parent parent' honward₂ hm₂ ⟨hsome, hparent⟩
  rw [← hsome] at hmethods
  exact Alike.finishClass hm₂ (hfollows₁.onward honward₂) hname hsame hparent hmethods

/-! ### Statements -/

theorem LikeAt.execute_succ (h : LikeAt K line rules fuel) (hrules : rules.lookup = .byDistance)
    (hm : MachineLike K line W m m') (hfollows : Follows W m.frames Γ m.current) {s s' : Stmt}
    (hs : StmtLike K Γ s s') :
    Alike K line W m (FlowLike K) (Exec.execute rules (fuel + 1) s m)
      (Exec.execute rules (fuel + 1) s' m') := by
  cases hs with
  | expression hvalue =>
    simp only [Exec.execute]
    apply Alike.bind (h.evaluate hm hfollows hvalue)
    intro W₁ m₁ m₁' _ _ _ hm₁ _
    exact Alike.pure hm₁ .normal
  | var hname hvalue =>
    have hbinder := hm.faithful.binder _ _ _ hname
    cases hvalue with
    | none =>
      -- The name may be another one, but it is that of the frame at hand.
      simp only [Exec.execute]
      rw [← hfollows.current] at hbinder
      apply Alike.bind (Alike.define hm hbinder .nil)
      intro W₁ m₁ m₁' _ _ _ hm₁ _
      exact Alike.pure hm₁ .normal
    | some hvalue =>
      simp only [Exec.execute]
      apply Alike.bind (h.evaluate hm hfollows hvalue)
      intro W₁ m₁ m₁' value value' honward₁ hm₁ hvalue
      rw [← (hfollows.onward honward₁).current] at hbinder
      apply Alike.bind (Alike.define hm₁ hbinder hvalue)
      intro W₂ m₂ m₂' _ _ _ hm₂ _
      exact Alike.pure hm₂ .normal
  | @block _ σ body body' hσ hbody =>
    simp only [Exec.execute]
    -- Both machines make their next frame, and it gets the renaming of the scope.
    apply Alike.bind (Alike.newInnerFrame hm hfollows.lt hσ)
    rintro W₁ m₁ m₁' frame frame' honward₁ hm₁ ⟨rfl, hframes₁, rfl, rfl⟩
    have hinner : Follows (W.add m.frames σ) { m₁ with current := m.frames.next }.frames
        (Γ.enter σ) m.frames.next := by
      change Follows (W.add m.frames σ) m₁.frames (Γ.enter σ) m.frames.next
      rw [hframes₁]
      exact hfollows.child σ
    have hrun := h.executeEach (hm₁.setCurrent m.frames.next) hinner hbody
    exact Alike.inFrame hm₁ hrun fun _ _ _ _ => FlowLike.setCurrent
  | conditional hcondition hthen =>
    simp only [Exec.execute]
    apply Alike.bind (h.evaluate hm hfollows hcondition)
    intro W₁ m₁ m₁' value value' honward₁ hm₁ hvalue
    rw [hvalue.similar.isTruthy]
    -- One condition, one branch.
    split
    · exact h.execute hm₁ (hfollows.onward honward₁) hthen
    · exact Alike.pure hm₁ .normal
  | alternative hcondition hthen helse =>
    simp only [Exec.execute]
    apply Alike.bind (h.evaluate hm hfollows hcondition)
    intro W₁ m₁ m₁' value value' honward₁ hm₁ hvalue
    rw [hvalue.similar.isTruthy]
    split
    · exact h.execute hm₁ (hfollows.onward honward₁) hthen
    · exact h.execute hm₁ (hfollows.onward honward₁) helse
  | loop hcondition hbody hincrement =>
    exact h.iterate hm hfollows hcondition hbody hincrement
  | @function _ d d' hsame hd =>
    obtain ⟨-, hlexeme, -⟩ := hm.faithful.token _ _ hd.name
    simp only [Exec.execute]
    apply Alike.get_bind
    rw [hm.current, hlexeme]
    apply Alike.bind (Alike.newFunction hm d d' m.current false)
    rintro W₁ m₁ m₁' f f' honward₁ hm₁
      ⟨rfl, hframes, hid, rfl, rfl, hclosure, hclosure', hinit, hinit'⟩
    have hfollows₁ := hfollows.onward honward₁
    -- The functions have the same number and see the same frame.
    have hf : ClosureLike K W₁ m₁.frames true f f' := by
      refine ⟨hid, hclosure'.trans hclosure.symm, hinit'.trans hinit.symm, Γ, hd, ?_⟩
      rw [hclosure, ← honward₁.current]
      exact hfollows₁
    -- A function keeps its name, so the frame at hand does not rename it.
    have hdefined : f.declaration.name.lexeme = W₁ m₁.current f.declaration.name.lexeme := by
      rw [hfollows₁.current]
      exact hsame.symm
    apply Alike.bind (Alike.define hm₁ hdefined (.function hf))
    intro W₂ m₂ m₂' _ _ _ hm₂ _
    exact Alike.pure hm₂ .normal
  | returning _ hvalue =>
    cases hvalue with
    -- Signals look alike as they are; only a returned value has to be compared.
    | none => exact Alike.pure hm (.returning .nil)
    | some hvalue =>
      simp only [Exec.execute]
      apply Alike.bind (h.evaluate hm hfollows hvalue)
      intro W₁ m₁ m₁' value value' _ hm₁ hvalue
      exact Alike.pure hm₁ (.returning hvalue)
  | breaking => exact Alike.pure hm .breaking
  | continuing => exact Alike.pure hm .continuing
  | «class» hsame hname hplace hmethods =>
    obtain ⟨-, hlexeme, -⟩ := hm.faithful.token _ _ hname
    simp only [Exec.execute]
    apply Alike.bind (Alike.declareClass hrules hm hfollows hlexeme hsame hplace hmethods)
    intro W₁ m₁ m₁' _ _ _ hm₁ _
    exact Alike.pure hm₁ .normal

theorem LikeAt.executeEach_succ (h : LikeAt K line rules fuel) (hm : MachineLike K line W m m')
    (hfollows : Follows W m.frames Γ m.current) {ss ss' : List Stmt} (hss : StmtEachLike K Γ ss ss') :
    Alike K line W m (FlowLike K) (Exec.executeEach rules (fuel + 1) ss m)
      (Exec.executeEach rules (fuel + 1) ss' m') := by
  cases hss with
  | nil => exact Alike.pure hm .normal
  | cons hs hrest =>
    simp only [Exec.executeEach]
    apply Alike.bind (h.execute hm hfollows hs)
    intro W₁ m₁ m₁' flow flow' honward hm₁ hflow
    cases hflow with
    | normal => exact h.executeEach hm₁ (hfollows.onward honward) hrest
    | breaking => exact Alike.pure hm₁ .breaking
    | continuing => exact Alike.pure hm₁ .continuing
    | returning hvalue => exact Alike.pure hm₁ (.returning hvalue)

theorem LikeAt.nextTurn (h : LikeAt K line rules fuel) (hm : MachineLike K line W m m')
    (hfollows : Follows W m.frames Γ m.current) {condition condition' : Expr} {body body' : Stmt}
    {increment increment' : Option Expr} (hcondition : ExprLike K Γ condition condition')
    (hbody : StmtLike K Γ body body') (hincrement : ExprIn?Like K Γ increment increment') :
    Alike K line W m (FlowLike K) (Exec.nextTurn rules fuel condition body increment m)
      (Exec.nextTurn rules fuel condition' body' increment' m') := by
  cases hincrement with
  | none => exact h.iterate hm hfollows hcondition hbody .none
  | some hstep =>
    apply Alike.bind (h.evaluate hm hfollows hstep)
    intro W₁ m₁ m₁' _ _ honward hm₁ _
    exact h.iterate hm₁ (hfollows.onward honward) hcondition hbody (.some hstep)

theorem LikeAt.iterate_succ (h : LikeAt K line rules fuel) (hm : MachineLike K line W m m')
    (hfollows : Follows W m.frames Γ m.current) {condition condition' : Expr} {body body' : Stmt}
    {increment increment' : Option Expr} (hcondition : ExprLike K Γ condition condition')
    (hbody : StmtLike K Γ body body') (hincrement : ExprIn?Like K Γ increment increment') :
    Alike K line W m (FlowLike K) (Exec.iterate rules (fuel + 1) condition body increment m)
      (Exec.iterate rules (fuel + 1) condition' body' increment' m') := by
  rw [Exec.iterate_succ, Exec.iterate_succ]
  apply Alike.bind (h.evaluate hm hfollows hcondition)
  intro W₁ m₁ m₁' value value' honward₁ hm₁ hvalue
  have hfollows₁ := hfollows.onward honward₁
  rw [hvalue.similar.isTruthy]
  split
  · apply Alike.bind (h.execute hm₁ hfollows₁ hbody)
    intro W₂ m₂ m₂' flow flow' honward₂ hm₂ hflow
    have hfollows₂ := hfollows₁.onward honward₂
    cases hflow with
    | normal => exact h.nextTurn hm₂ hfollows₂ hcondition hbody hincrement
    | continuing => exact h.nextTurn hm₂ hfollows₂ hcondition hbody hincrement
    | breaking => exact Alike.pure hm₂ .normal
    | returning hvalue => exact Alike.pure hm₂ (.returning hvalue)
  · exact Alike.pure hm₁ .normal

theorem likeAt_zero (K : Likeness) (line : Nat → Nat → Prop) (rules : Rules) :
    LikeAt K line rules 0 := by
  constructor
  all_goals
    intros
    exact Alike.outOfFuel ‹_›

/-- Code that looks alike is executed alike, whatever the bound of the recursion. -/
theorem likeAt (K : Likeness) (line : Nat → Nat → Prop) {rules : Rules}
    (hrules : rules.lookup = .byDistance) (fuel : Nat) : LikeAt K line rules fuel := by
  induction fuel with
  | zero => exact likeAt_zero K line rules
  | succ fuel ih =>
    exact ⟨fun hm hfollows => ih.evaluate_succ hrules hm hfollows,
      fun hm hfollows => ih.evaluateEach_succ hm hfollows, fun hm => ih.call_succ hm,
      fun hm => ih.callFunction_succ hm, fun hm hfollows => ih.execute_succ hrules hm hfollows,
      fun hm hfollows => ih.executeEach_succ hm hfollows,
      fun hm hfollows => ih.iterate_succ hm hfollows⟩

end Lox
