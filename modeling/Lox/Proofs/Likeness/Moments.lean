import Lox.Proofs.Execution.Origins
import Lox.Proofs.Execution.Raising
import Lox.Proofs.Likeness.Evaluation

/-!
# Moments that look alike

Runs that look alike do so at every moment: the parts of tasks that look alike do so as
well, one by one.  Besides that, the code at two such moments may correspond in a stronger
sense than the functions that the machines hold.  The parts of this code do so, too, as
long as no call is in between, and an error is raised at tokens that correspond.
-/

namespace Lox

variable {K K₂ : Likeness} {line : Nat → Nat → Prop} {W : World} {m m' : Machine}
  {rules : Rules} {fuel : Nat}

inductive TaskLike (K : Likeness) (line : Nat → Nat → Prop) (W : World) (m : Machine) :
    Task → Task → Prop where
  | evaluate {Γ : Surroundings} {e e' : Expr} : Follows W m.frames Γ m.current →
      ExprLike K Γ e e' → TaskLike K line W m (.evaluate e) (.evaluate e')
  | evaluateEach {Γ : Surroundings} {es es' : List Expr} : Follows W m.frames Γ m.current →
      ExprEachLike K Γ es es' → TaskLike K line W m (.evaluateEach es) (.evaluateEach es')
  | call {callee callee' : Value} {arguments arguments' : List Value} {n n' : Nat} :
      ValueLike K W m.frames callee callee' → ValuesLike K W m.frames arguments arguments' →
      line n n' → TaskLike K line W m (.call callee arguments n) (.call callee' arguments' n')
  | callFunction {f f' : Function} {arguments arguments' : List Value} {n n' : Nat} :
      ClosureLike K W m.frames true f f' → ValuesLike K W m.frames arguments arguments' →
      line n n' →
      TaskLike K line W m (.callFunction f arguments n) (.callFunction f' arguments' n')
  | execute {Γ : Surroundings} {s s' : Stmt} : Follows W m.frames Γ m.current →
      StmtLike K Γ s s' → TaskLike K line W m (.execute s) (.execute s')
  | executeEach {Γ : Surroundings} {ss ss' : List Stmt} : Follows W m.frames Γ m.current →
      StmtEachLike K Γ ss ss' → TaskLike K line W m (.executeEach ss) (.executeEach ss')
  | iterate {Γ : Surroundings} {condition condition' : Expr} {body body' : Stmt}
      {increment increment' : Option Expr} : Follows W m.frames Γ m.current →
      ExprLike K Γ condition condition' → StmtLike K Γ body body' →
      ExprIn?Like K Γ increment increment' →
      TaskLike K line W m (.iterate condition body increment)
        (.iterate condition' body' increment')

/-- The same task in the same state, except for what the likeness leaves open. -/
inductive MomentLike (K : Likeness) (line : Nat → Nat → Prop) : Moment → Moment → Prop where
  | mk {fuel : Nat} {W : World} {m m' : Machine} {task task' : Task} :
      MachineLike K line W m m' → TaskLike K line W m task task' →
      MomentLike K line ⟨fuel, task, m⟩ ⟨fuel, task', m'⟩

/-- The code of the tasks looks alike; a call has none of its own. -/
inductive CodeLike (K : Likeness) : Task → Task → Prop where
  | evaluate {Γ : Surroundings} {e e' : Expr} :
      ExprLike K Γ e e' → CodeLike K (.evaluate e) (.evaluate e')
  | evaluateEach {Γ : Surroundings} {es es' : List Expr} :
      ExprEachLike K Γ es es' → CodeLike K (.evaluateEach es) (.evaluateEach es')
  | call {callee callee' : Value} {arguments arguments' : List Value} {n n' : Nat} :
      CodeLike K (.call callee arguments n) (.call callee' arguments' n')
  | callFunction {Γ : Surroundings} {f f' : Function} {arguments arguments' : List Value}
      {n n' : Nat} : FunctionLike K Γ f.declaration f'.declaration →
      CodeLike K (.callFunction f arguments n) (.callFunction f' arguments' n')
  | execute {Γ : Surroundings} {s s' : Stmt} :
      StmtLike K Γ s s' → CodeLike K (.execute s) (.execute s')
  | executeEach {Γ : Surroundings} {ss ss' : List Stmt} :
      StmtEachLike K Γ ss ss' → CodeLike K (.executeEach ss) (.executeEach ss')
  | iterate {Γ : Surroundings} {condition condition' : Expr} {body body' : Stmt}
      {increment increment' : Option Expr} : ExprLike K Γ condition condition' →
      StmtLike K Γ body body' → ExprIn?Like K Γ increment increment' →
      CodeLike K (.iterate condition body increment) (.iterate condition' body' increment')

theorem MomentLike.codeLike {x x' : Moment} (h : MomentLike K line x x') :
    CodeLike K x.task x'.task := by
  cases h with
  | mk _ htask =>
    cases htask with
    | evaluate _ he => exact .evaluate he
    | evaluateEach _ hes => exact .evaluateEach hes
    | call => exact .call
    | callFunction hf =>
      obtain ⟨Γ, hcode, -⟩ := hf.declaration
      exact .callFunction hcode
    | execute _ hs => exact .execute hs
    | executeEach _ hss => exact .executeEach hss
    | iterate _ hcondition hbody hincrement => exact .iterate hcondition hbody hincrement

/-- Moments that look alike, and in a stronger sense if they are about code. -/
structure PartLike (K : Likeness) (line : Nat → Nat → Prop) (K₂ : Likeness) (x x' : Moment) :
    Prop where
  moment : MomentLike K line x x'
  code : x.task.IsCode → CodeLike K₂ x.task x'.task

abbrev PartsLike (K : Likeness) (line : Nat → Nat → Prop) (K₂ : Likeness) :
    List Moment → List Moment → Prop :=
  List.Forall₂ (PartLike K line K₂)

/-! ### The parts of a task -/

theorem PartsLike.single {x x' : Moment} (hx : MomentLike K line x x')
    (hcode : x.task.IsCode → CodeLike K₂ x.task x'.task) : PartsLike K line K₂ [x] [x'] :=
  .cons ⟨hx, hcode⟩ .nil

/-- Behind computations that look alike, the parts do so if they do for each like result. -/
theorem Alike.behind {α : Type} {post : World → Machine → α → α → Prop} {p p' : Exec α}
    {rest rest' : α → Machine → List Moment} (hp : Alike K line W m post (p m) (p' m'))
    (hrest : ∀ W₁ m₁ m₁' a a', Onward W m W₁ m₁ → MachineLike K line W₁ m₁ m₁' →
      post W₁ m₁ a a' → PartsLike K line K₂ (rest a m₁) (rest' a' m₁')) :
    PartsLike K line K₂ (Exec.behind p rest m) (Exec.behind p' rest' m') := by
  unfold Exec.behind
  generalize p m = r at hp ⊢
  generalize p' m' = r' at hp ⊢
  cases hp with
  | ok honward hlike hpost => exact hrest _ _ _ _ _ honward hlike hpost
  | error => exact .nil

section

variable (hrules : rules.lookup = .byDistance) (hm : MachineLike K line W m m')

include hrules hm

theorem partsOfExpr_like {Γ Γ₂ : Surroundings} (hfollows : Follows W m.frames Γ m.current)
    {e e' : Expr} (he : ExprLike K Γ e e') (hcode : ExprLike K₂ Γ₂ e e') :
    PartsLike K line K₂ (Moment.partsOfExpr rules fuel m e)
      (Moment.partsOfExpr rules fuel m' e') := by
  have hall := likeAt K line hrules fuel
  cases he with
  | literal | read | this | super => exact .nil
  | group hinner =>
    cases hcode with
    | group hinner₂ => exact .single ⟨hm, .evaluate hfollows hinner⟩ fun _ => .evaluate hinner₂
  | unary _ hoperand =>
    cases hcode with
    | unary _ hoperand₂ =>
      exact .single ⟨hm, .evaluate hfollows hoperand⟩ fun _ => .evaluate hoperand₂
  | binary hleft _ hright =>
    cases hcode with
    | binary hleft₂ _ hright₂ =>
      refine .cons ⟨⟨hm, .evaluate hfollows hleft⟩, fun _ => .evaluate hleft₂⟩ ?_
      refine Alike.behind (hall.evaluate hm hfollows hleft) fun W₁ m₁ m₁' _ _ honward hm₁ _ => ?_
      exact .single ⟨hm₁, .evaluate (hfollows.onward honward) hright⟩ fun _ => .evaluate hright₂
  | logical hleft hoperator hright =>
    obtain ⟨hkind, -, -⟩ := hm.faithful.token _ _ hoperator
    cases hcode with
    | logical hleft₂ _ hright₂ =>
      refine .cons ⟨⟨hm, .evaluate hfollows hleft⟩, fun _ => .evaluate hleft₂⟩ ?_
      refine Alike.behind (hall.evaluate hm hfollows hleft)
        fun W₁ m₁ m₁' left left' honward hm₁ hvalue => ?_
      rw [Operator.decides_similar hkind hvalue.similar]
      split
      · exact .nil
      · exact .single ⟨hm₁, .evaluate (hfollows.onward honward) hright⟩ fun _ => .evaluate hright₂
  | assign _ hvalue =>
    cases hcode with
    | assign _ hvalue₂ => exact .single ⟨hm, .evaluate hfollows hvalue⟩ fun _ => .evaluate hvalue₂
  | call hcallee hparen harguments =>
    obtain ⟨-, -, hline⟩ := hm.faithful.token _ _ hparen
    cases hcode with
    | call hcallee₂ _ harguments₂ =>
      -- The callee, the arguments, and behind the checks the call, which has no code.
      refine .cons ⟨⟨hm, .evaluate hfollows hcallee⟩, fun _ => .evaluate hcallee₂⟩ ?_
      refine Alike.behind (hall.evaluate hm hfollows hcallee)
        fun W₁ m₁ m₁' callee callee' honward₁ hm₁ hvalue => ?_
      have hfollows₁ := hfollows.onward honward₁
      refine .cons ⟨⟨hm₁, .evaluateEach hfollows₁ harguments⟩, fun _ => .evaluateEach harguments₂⟩
        ?_
      refine Alike.behind (hall.evaluateEach hm₁ hfollows₁ harguments)
        fun W₂ m₂ m₂' values values' honward₂ hm₂ hvalues => ?_
      rw [hvalues.length_eq]
      refine Alike.behind (Alike.checkCall hm₂ hvalue.similar.arity? _ hline)
        fun W₃ m₃ m₃' _ _ honward₃ hm₃ _ => ?_
      have hvalue₃ := hvalue.evolve (honward₂.evolves.trans honward₃.evolves)
      exact .single ⟨hm₃.setDepth (congrArg (· + 1) hm₃.depth),
        .call hvalue₃ (hvalues.evolve honward₃.evolves) hline⟩ fun hcode => by cases hcode
  | get hobject _ =>
    cases hcode with
    | get hobject₂ _ =>
      exact .single ⟨hm, .evaluate hfollows hobject⟩ fun _ => .evaluate hobject₂
  | set hobject _ hvalue =>
    cases hcode with
    | set hobject₂ _ hvalue₂ =>
      refine .cons ⟨⟨hm, .evaluate hfollows hobject⟩, fun _ => .evaluate hobject₂⟩ ?_
      refine Alike.behind (hall.evaluate hm hfollows hobject)
        fun W₁ m₁ m₁' owner owner' honward hm₁ howner => ?_
      -- The value is a part only if the object is an instance.
      cases howner with
      | object =>
        exact .single ⟨hm₁, .evaluate (hfollows.onward honward) hvalue⟩ fun _ => .evaluate hvalue₂
      | _ => exact .nil

theorem partsOfStmt_like {Γ Γ₂ : Surroundings} (hfollows : Follows W m.frames Γ m.current)
    {s s' : Stmt} (hs : StmtLike K Γ s s') (hcode : StmtLike K₂ Γ₂ s s') :
    PartsLike K line K₂ (Moment.partsOfStmt rules fuel m s)
      (Moment.partsOfStmt rules fuel m' s') := by
  have hall := likeAt K line hrules fuel
  cases hs with
  | function | breaking | continuing | «class» => exact .nil
  | expression hvalue =>
    cases hcode with
    | expression hvalue₂ =>
      exact .single ⟨hm, .evaluate hfollows hvalue⟩ fun _ => .evaluate hvalue₂
  | var _ hvalue =>
    cases hcode with
    | var _ hvalue₂ =>
      cases hvalue with
      -- Without a value there is no part.
      | none => exact .nil
      | some hvalue =>
        cases hvalue₂ with
        | some hvalue₂ => exact .single ⟨hm, .evaluate hfollows hvalue⟩ fun _ => .evaluate hvalue₂
  | returning _ hvalue =>
    cases hcode with
    | returning _ hvalue₂ =>
      cases hvalue with
      | none => exact .nil
      | some hvalue =>
        cases hvalue₂ with
        | some hvalue₂ => exact .single ⟨hm, .evaluate hfollows hvalue⟩ fun _ => .evaluate hvalue₂
  | @block _ σ body body' hσ hbody =>
    cases hcode with
    | block _ hbody₂ =>
      -- The body is run in a new frame, which both machines make with the same number.
      change PartsLike K line K₂ (Moment.parts rules ⟨fuel + 1, .execute (.block body), m⟩)
        (Moment.parts rules ⟨fuel + 1, .execute (.block body'), m'⟩)
      rw [Moment.parts_block, Moment.parts_block]
      refine Alike.behind (Alike.newInnerFrame hm hfollows.lt hσ) ?_
      rintro W₁ m₁ m₁' frame frame' - hm₁ ⟨rfl, hframes₁, rfl, rfl⟩
      have hinner : Follows (W.add m.frames σ) m₁.frames (Γ.enter σ) m.frames.next := by
        rw [hframes₁]
        exact hfollows.child σ
      exact .single ⟨hm₁.setCurrent _, .executeEach hinner hbody⟩ fun _ => .executeEach hbody₂
  | conditional hcondition hthen =>
    cases hcode with
    | conditional hcondition₂ hthen₂ =>
      refine .cons ⟨⟨hm, .evaluate hfollows hcondition⟩, fun _ => .evaluate hcondition₂⟩ ?_
      refine Alike.behind (hall.evaluate hm hfollows hcondition)
        fun W₁ m₁ m₁' value value' honward hm₁ hvalue => ?_
      -- The condition yields values that are truthy on both sides or on neither.
      rw [hvalue.similar.isTruthy]
      split
      · exact .single ⟨hm₁, .execute (hfollows.onward honward) hthen⟩ fun _ => .execute hthen₂
      · exact .nil
  | alternative hcondition hthen helse =>
    cases hcode with
    | alternative hcondition₂ hthen₂ helse₂ =>
      refine .cons ⟨⟨hm, .evaluate hfollows hcondition⟩, fun _ => .evaluate hcondition₂⟩ ?_
      refine Alike.behind (hall.evaluate hm hfollows hcondition)
        fun W₁ m₁ m₁' value value' honward hm₁ hvalue => ?_
      rw [hvalue.similar.isTruthy]
      split
      · exact .single ⟨hm₁, .execute (hfollows.onward honward) hthen⟩ fun _ => .execute hthen₂
      · exact .single ⟨hm₁, .execute (hfollows.onward honward) helse⟩ fun _ => .execute helse₂
  | loop hcondition hbody hincrement =>
    cases hcode with
    | loop hcondition₂ hbody₂ hincrement₂ =>
      exact .single ⟨hm, .iterate hfollows hcondition hbody hincrement⟩
        fun _ => .iterate hcondition₂ hbody₂ hincrement₂

theorem partsOfTurn_like {Γ Γ₂ : Surroundings} (hfollows : Follows W m.frames Γ m.current)
    {condition condition' : Expr} {body body' : Stmt} {increment increment' : Option Expr}
    (hcondition : ExprLike K Γ condition condition') (hbody : StmtLike K Γ body body')
    (hincrement : ExprIn?Like K Γ increment increment')
    (hcondition₂ : ExprLike K₂ Γ₂ condition condition') (hbody₂ : StmtLike K₂ Γ₂ body body')
    (hincrement₂ : ExprIn?Like K₂ Γ₂ increment increment') :
    PartsLike K line K₂ (Moment.partsOfTurn rules fuel condition body m increment)
      (Moment.partsOfTurn rules fuel condition' body' m' increment') := by
  cases hincrement with
  -- Without an increment the loop goes on at once.
  | none =>
    exact .single ⟨hm, .iterate hfollows hcondition hbody .none⟩
      fun _ => .iterate hcondition₂ hbody₂ .none
  | some hstep =>
    cases hincrement₂ with
    | some hstep₂ =>
      -- The increment is a part, and the next turn is behind it.
      refine .cons ⟨⟨hm, .evaluate hfollows hstep⟩, fun _ => .evaluate hstep₂⟩ ?_
      refine Alike.behind ((likeAt K line hrules fuel).evaluate hm hfollows hstep)
        fun W₁ m₁ m₁' _ _ honward hm₁ _ => ?_
      exact .single ⟨hm₁, .iterate (hfollows.onward honward) hcondition hbody (.some hstep)⟩
        fun _ => .iterate hcondition₂ hbody₂ (.some hstep₂)

end

/-- The parts of moments that look alike do so as well, and their code does in the stronger sense. -/
theorem MomentLike.parts {x x' : Moment} (h : MomentLike K line x x')
    (hrules : rules.lookup = .byDistance) (hcode : CodeLike K₂ x.task x'.task) :
    PartsLike K line K₂ (x.parts rules) (x'.parts rules) := by
  cases h with
  | @mk fuel W m m' task task' hm htask =>
    cases fuel with
    | zero => exact .nil
    | succ fuel =>
      have hall := likeAt K line hrules fuel
      cases htask with
      -- Code: both senses of likeness are taken apart together.
      | evaluate hfollows he =>
        cases hcode with
        | evaluate he₂ => exact partsOfExpr_like hrules hm hfollows he he₂
      | execute hfollows hs =>
        cases hcode with
        | execute hs₂ => exact partsOfStmt_like hrules hm hfollows hs hs₂
      | evaluateEach hfollows hes =>
        cases hcode with
        | evaluateEach hes₂ =>
          cases hes with
          | nil => exact .nil
          | cons he hrest =>
            cases hes₂ with
            | cons he₂ hrest₂ =>
              refine .cons ⟨⟨hm, .evaluate hfollows he⟩, fun _ => .evaluate he₂⟩ ?_
              refine Alike.behind (hall.evaluate hm hfollows he)
                fun W₁ m₁ m₁' _ _ honward hm₁ _ => ?_
              exact .single ⟨hm₁, .evaluateEach (hfollows.onward honward) hrest⟩
                fun _ => .evaluateEach hrest₂
      | executeEach hfollows hss =>
        cases hcode with
        | executeEach hss₂ =>
          cases hss with
          | nil => exact .nil
          | cons hs hrest =>
            cases hss₂ with
            | cons hs₂ hrest₂ =>
              refine .cons ⟨⟨hm, .execute hfollows hs⟩, fun _ => .execute hs₂⟩ ?_
              refine Alike.behind (hall.execute hm hfollows hs)
                fun W₁ m₁ m₁' flow flow' honward hm₁ hflow => ?_
              cases hflow with
              -- The rest is a part only if the statement has ended normally.
              | normal =>
                exact .single ⟨hm₁, .executeEach (hfollows.onward honward) hrest⟩
                  fun _ => .executeEach hrest₂
              | _ => exact .nil
      | iterate hfollows hcondition hbody hincrement =>
        cases hcode with
        | iterate hcondition₂ hbody₂ hincrement₂ =>
          refine .cons ⟨⟨hm, .evaluate hfollows hcondition⟩, fun _ => .evaluate hcondition₂⟩ ?_
          refine Alike.behind (hall.evaluate hm hfollows hcondition)
            fun W₁ m₁ m₁' value value' honward₁ hm₁ hvalue => ?_
          have hfollows₁ := hfollows.onward honward₁
          rw [hvalue.similar.isTruthy]
          split
          · -- A turn is a part only if the test is truthy.
            refine .cons ⟨⟨hm₁, .execute hfollows₁ hbody⟩, fun _ => .execute hbody₂⟩ ?_
            refine Alike.behind (hall.execute hm₁ hfollows₁ hbody)
              fun W₂ m₂ m₂' flow flow' honward₂ hm₂ hflow => ?_
            cases hflow with
            -- A `break` or a `return` leaves the loop with no further part.
            | normal | continuing =>
              exact partsOfTurn_like hrules hm₂ (hfollows₁.onward honward₂) hcondition hbody
                hincrement hcondition₂ hbody₂ hincrement₂
            | _ => exact .nil
          · exact .nil
      | call hcallee harguments hline =>
        -- What is called is no code yet, so nothing is said of it in the stronger sense.
        cases hcallee with
        | function hf =>
          exact .single ⟨hm, .callFunction hf harguments hline⟩ fun hcode => by cases hcode
        | @«class» c c' hclass =>
          rw [Moment.parts_class, Moment.parts_class]
          refine Alike.behind (Alike.newInstance hm c c') ?_
          rintro W₁ m₁ m₁' owner owner' honward₁ hm₁ ⟨rfl, -, hid, rfl, rfl⟩
          have howner₁ : ValueLike K W₁ m₁.frames (.object owner) (.object owner') :=
            .object hid (hclass.evolve honward₁.evolves)
          have hfound := hclass.findMethod? initializerName
          unfold Class.initializer?
          generalize owner.cls.findMethod? initializerName = f at hfound ⊢
          generalize owner'.cls.findMethod? initializerName = f' at hfound ⊢
          cases hfound with
          | none => exact .nil
          | some hf =>
            refine Alike.behind
              (Alike.bindMethod hm₁ (hf.mono (.refl K) honward₁.evolves) howner₁)
              fun W₂ m₂ m₂' g g' honward₂ hm₂ hg => ?_
            have hvalues₂ := harguments.evolve (honward₁.evolves.trans honward₂.evolves)
            exact .single ⟨hm₂, .callFunction hg hvalues₂ hline⟩ fun hcode => by cases hcode
        | _ => exact .nil
      | @callFunction f f' _ _ _ _ hf harguments hline =>
        cases hcode with
        | callFunction hf₂ =>
          refine Alike.behind (Alike.bindArguments hm hf harguments) ?_
          rintro W₁ m₁ m₁' frame frame' - hm₁ ⟨rfl, Γ, hinner, hbody⟩
          refine .single ⟨hm₁.setCurrent frame', .executeEach hinner hbody⟩ fun _ => ?_
          change CodeLike K₂ (.executeEach f.declaration.body) (.executeEach f'.declaration.body)
          generalize f.declaration = d at hf₂ ⊢
          generalize f'.declaration = d' at hf₂ ⊢
          cases hf₂ with
          | mk _ _ _ hbody₂ => exact .executeEach hbody₂

/-! ### What a task leads to -/

section

variable {x x' y y' : Moment} {e e' : RuntimeError} {t : Token}

theorem PartsLike.of_mem {xs ys : List Moment} (h : PartsLike K line K₂ xs ys) (hx : x ∈ xs) :
    ∃ y ∈ ys, PartLike K line K₂ x y := by
  induction h with
  | nil => cases hx
  | cons hpart _ ih =>
    rcases List.mem_cons.mp hx with rfl | hx
    · exact ⟨_, List.mem_cons_self, hpart⟩
    · obtain ⟨y, hy, hlike⟩ := ih hx
      exact ⟨y, List.mem_cons_of_mem _ hy, hlike⟩

theorem PartsLike.of_mem_right {xs ys : List Moment} (h : PartsLike K line K₂ xs ys) (hy : y ∈ ys) :
    ∃ x ∈ xs, PartLike K line K₂ x y := by
  induction h with
  | nil => cases hy
  | cons hpart _ ih =>
    rcases List.mem_cons.mp hy with rfl | hy
    · exact ⟨_, List.mem_cons_self, hpart⟩
    · obtain ⟨x, hx, hlike⟩ := ih hy
      exact ⟨x, List.mem_cons_of_mem _ hx, hlike⟩

section

variable (h : MomentLike K line x x') (hrules : rules.lookup = .byDistance)

include h hrules

/-- What the one moment leads to, the other one leads to as well. -/
theorem MomentLike.leads (hcode : CodeLike K₂ x.task x'.task) (hleads : Leads rules x y) :
    ∃ y', Leads rules x' y' ∧ PartLike K line K₂ y y' := by
  obtain ⟨y', hy', hlike⟩ := (h.parts hrules hcode).of_mem (Moment.mem_parts_iff.mpr hleads)
  exact ⟨y', Moment.mem_parts_iff.mp hy', hlike⟩

/-- The run through the one moment goes on as the run through the other one does. -/
theorem MomentLike.passes (hpasses : Passes rules x y) :
    ∃ y', Passes rules x' y' ∧ MomentLike K line y y' := by
  induction hpasses with
  | start => exact ⟨x', .start, h⟩
  | step _ hleads ih =>
    obtain ⟨y', hy', hlike⟩ := ih
    obtain ⟨z', hleads', hpart⟩ := hlike.leads hrules hlike.codeLike hleads
    exact ⟨z', hy'.step hleads', hpart.moment⟩

/-! ### Errors -/

omit h hrules in
/-- Computations that look alike fail together. -/
theorem Alike.fails {α : Type} {post : World → Machine → α → α → Prop} {p p' : Exec α}
    (hp : Alike K line W m post (p m) (p' m')) :
    (∀ e, p.Fails m e → ∃ e', p'.Fails m' e' ∧ ErrorLike line e e') ∧
      ∀ e', p'.Fails m' e' → ∃ e, p.Fails m e ∧ ErrorLike line e e' := by
  unfold Exec.Fails
  generalize p m = r at hp ⊢
  generalize p' m' = r' at hp ⊢
  cases hp with
  | ok =>
    constructor
    · rintro e ⟨m₁, hfails⟩
      cases hfails
    · rintro e ⟨m₁, hfails⟩
      cases hfails
  | error _ _ herror =>
    constructor
    · rintro e ⟨m₁, hfails⟩
      cases hfails
      cases herror with
      | error herror => exact ⟨_, ⟨_, rfl⟩, herror⟩
    · rintro e ⟨m₁, hfails⟩
      cases hfails
      cases herror with
      | error herror => exact ⟨_, ⟨_, rfl⟩, herror⟩

/-- Tasks that look alike fail together. -/
theorem MomentLike.fails :
    (∀ e, x.Fails rules e → ∃ e', x'.Fails rules e' ∧ ErrorLike line e e') ∧
      ∀ e', x'.Fails rules e' → ∃ e, x.Fails rules e ∧ ErrorLike line e e' := by
  cases h with
  | @mk fuel W m m' task task' hm htask =>
    have hall := likeAt K line hrules fuel
    cases htask with
    | evaluate hfollows he => exact (hall.evaluate hm hfollows he).fails
    | evaluateEach hfollows hes => exact (hall.evaluateEach hm hfollows hes).fails
    | call hcallee harguments hline => exact (hall.call hm hcallee harguments hline).fails
    | callFunction hf harguments hline => exact (hall.callFunction hm hf harguments hline).fails
    | execute hfollows hs => exact (hall.execute hm hfollows hs).fails
    | executeEach hfollows hss => exact (hall.executeEach hm hfollows hss).fails
    | iterate hfollows hcondition hbody hincrement =>
      exact (hall.iterate hm hfollows hcondition hbody hincrement).fails

end

theorem MomentLike.isNative (h : MomentLike K line x x') (hnative : x.task.IsNative) :
    x'.task.IsNative := by
  cases h with
  | mk _ htask =>
    cases htask with
    | call hcallee =>
      cases hcallee with
      | native => trivial
      | _ => cases hnative
    | _ => cases hnative

/-- Code that looks alike reports its errors at tokens that correspond. -/
theorem CodeLike.token? {task task' : Task} (h : CodeLike K task task') {T : Token → Token → Prop}
    (htoken : ∀ t t', K.token t t' → T t t')
    (hplace : ∀ Γ p p', K.place Γ p p' → T p.token p'.token) (ht : task.token? = some t) :
    ∃ t', task'.token? = some t' ∧ T t t' := by
  cases h with
  | evaluate he =>
    cases he with
    | literal | group | logical => cases ht
    | unary hoperator | binary _ hoperator =>
      cases ht
      exact ⟨_, rfl, htoken _ _ hoperator⟩
    | read hp | assign hp | this hp =>
      cases ht
      exact ⟨_, rfl, hplace _ _ _ hp⟩
    | call _ hparen =>
      cases ht
      exact ⟨_, rfl, htoken _ _ hparen⟩
    | get _ hname | set _ hname | super _ hname =>
      cases ht
      exact ⟨_, rfl, htoken _ _ hname⟩
  | execute hs =>
    cases hs with
    | «class» _ _ hsuperclass _ =>
      cases hsuperclass with
      | none => cases ht
      | some hp =>
        cases ht
        exact ⟨_, rfl, hplace _ _ _ hp⟩
    | _ => cases ht
  | _ => cases ht

/-- Where an error is raised at the one moment, a like one is raised at the other, and at the same place. -/
theorem Moment.RaisesAt.like (h : x.RaisesAt rules t e) (hx : MomentLike K line x x')
    (hrules : rules.lookup = .byDistance) (hcode : CodeLike K₂ x.task x'.task)
    {T : Token → Token → Prop} (htoken : ∀ t t', K₂.token t t' → T t t')
    (hplace : ∀ Γ p p', K₂.place Γ p p' → T p.token p'.token) :
    ∃ t' e', x'.RaisesAt rules t' e' ∧ ErrorLike line e e' ∧ T t t' := by
  obtain ⟨e', hfails, herror⟩ := (hx.fails hrules).1 e h.fails
  obtain ⟨t', ht', hT⟩ := hcode.token? htoken hplace h.token
  refine ⟨t', e', ⟨hfails, ?_, ht'⟩, herror, hT⟩
  intro y' hleads' hy'
  obtain ⟨y, hy, hlike⟩ := (hx.parts hrules hcode).of_mem_right (Moment.mem_parts_iff.mpr hleads')
  have hleads := Moment.mem_parts_iff.mp hy
  obtain ⟨e₁, hfails₁, -⟩ := (hlike.moment.fails hrules).2 e' hy'
  -- The part of the first task fails with the error of the task, so it is a native function.
  cases (hleads.fails hfails₁).unique h.fails
  exact hlike.moment.isNative (h.innermost y hleads hfails₁)

end

end Lox
