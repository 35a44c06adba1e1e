import Lox.Proofs.Inset.Evaluation

/-!
# Statements and loops at an inset

A statement matches that at an inset, where the increment of the loop around is evaluated
at once behind each `continue`.  A loop that carries its increment matches one that
evaluates it at the end of its body.  With these steps the induction on the bound of the
first execution is complete.
-/

namespace Lox

open Exec

variable {D D' : Distances} {rules : Rules} {n N : Nat} {image : Nat → Nat} {m m' : Machine}
  {σ : Inset} {k : Nat} {step : Option Expr} {home : FrameId}

/-! ### Statements -/

/-- Inside of one more scope of the body of the loop. -/
theorem Stepping.enter (h : Stepping D D' rules n N m k step home)
    (hcurrent : m.current < m.frames.size) {m₁ : Machine}
    (hframes : m₁.frames = m.frames.child m.current) :
    Stepping D D' rules n N { m₁ with current := m.frames.next } (k + 1) step home := by
  refine ⟨h.le, h.evaluates, ?_⟩
  intro e he
  change m₁.frames.ancestor? m.frames.next (k + 1) = some home
  rw [hframes, Frames.ancestor?, Frames.enclosing?_child_next hcurrent, Option.bind_some,
    Frames.ancestor?_of_enclosing (fun _ hf => Frames.enclosing?_child_of_lt hf) hcurrent]
  exact h.home e he

/-- An increment that is a statement of its own. -/
theorem EvaluatesAt.expression (h : EvaluatesAt D D' rules n) (hm : MachineEmbedded D D' image m m')
    (hsees : Sees (m.into m' image) σ m.current m'.current) {e e' : Expr}
    (he : ExprInset (InPlace D D') σ e e') :
    Matches D D' n image m m' (fun _ _ flow' => flow' = .normal) (Exec.evaluate rules n e m)
      fun j => Exec.execute rules j (.expression e') m' := by
  rw [← bind_pure (Exec.evaluate rules n e)]
  refine .delayed ?_ (isUnfinished_outOfFuel m')
  simp only [Exec.execute]
  apply Matches.bind (h hm hsees he)
  intro image₁ m₁ m₁' _ _ _ hm₁ _
  exact .pure hm₁ rfl

/-- An increment that is a statement of its own, and the statements behind it. -/
theorem EvaluatesAt.expression_then (h : EvaluatesAt D D' rules n)
    (hm : MachineEmbedded D D' image m m')
    (hsees : Sees (m.into m' image) σ m.current m'.current) {e e' : Expr}
    (he : ExprInset (InPlace D D') σ e e') {flow : Flow} {rest : List Stmt}
    (hrest : ∀ image₁ m₁ m₁', MachineEmbedded D D' image₁ m₁ m₁' →
      Matches D D' n image₁ m₁ m₁' (FlowEmbedded D D') ((Pure.pure flow : Exec Flow) m₁)
        fun j => Exec.executeEach rules j rest m₁') :
    Matches D D' n image m m' (FlowEmbedded D D')
      ((Exec.evaluate rules n e >>= fun _ => Pure.pure flow) m)
      fun j => Exec.executeEach rules j (.expression e' :: rest) m' := by
  refine .delayed ?_ (isUnfinished_outOfFuel m')
  simp only [Exec.executeEach]
  apply Matches.bind (h.expression hm hsees he)
  rintro image₁ m₁ m₁' _ _ _ hm₁ rfl
  exact hrest image₁ m₁ m₁' hm₁

theorem Matches.executeEach_nil (hm : MachineEmbedded D D' image m m') :
    Matches D D' n image m m' (FlowEmbedded D D') ((Pure.pure Flow.normal : Exec Flow) m)
      fun j => Exec.executeEach rules j [] m' := by
  refine .delayed ?_ (isUnfinished_outOfFuel m')
  simp only [Exec.executeEach]
  exact .pure hm .normal

theorem Matches.executeEach_continuing (hm : MachineEmbedded D D' image m m') (keyword : Token) :
    Matches D D' n image m m' (FlowEmbedded D D') ((Pure.pure Flow.continuing : Exec Flow) m)
      fun j => Exec.executeEach rules j [.continuing keyword] m' := by
  refine .delayed ?_ (isUnfinished_outOfFuel m')
  simp only [Exec.executeEach_singleton]
  refine .delayed ?_ (isUnfinished_outOfFuel m')
  simp only [Exec.execute]
  exact .pure hm .continuing

/-- Behind a `continue` the first execution evaluates the increment, and in front of it the second. -/
theorem Stepping.continuing (h : Stepping D D' rules n N m k step home)
    (hm : MachineEmbedded D D' image m m')
    (hsees : Sees (m.into m' image) σ m.current m'.current) {step' : Option Expr}
    (hstep : ExprIn?Inset (InPlace D D') (σ.outer k).further step step') (keyword : Token) :
    Matches D D' (n + 1) image m m' (FlowEmbedded D D')
      (thenStep rules N home step .continuing m)
      fun j => Exec.execute rules j (.block (Stmt.steps step' ++ [.continuing keyword])) m' := by
  refine .delay ?_ (isUnfinished_outOfFuel m')
  simp only [Exec.execute]
  apply Matches.boxed
  have hbox := (hm.box m'.current).setCurrent m.current m'.frames.next
  cases hstep with
  | none => exact .executeEach_continuing hbox keyword
  | @some e e' he =>
    change Matches _ _ _ _ _ _ _ ((inFrame home (Exec.evaluate rules N e) >>= fun _ =>
      Pure.pure Flow.continuing) m) _
    rw [inFrame_bind_pure]
    apply Matches.inFrame_left
    have hhome := (hsees.outer (h.home e rfl)).box
    have hthere := (hm.box m'.current).setCurrent home m'.frames.next
    refine .mono h.le (EvaluatesAt.expression_then h.evaluates hthere hhome he ?_)
    intro image₁ m₁ m₁' hm₁
    exact .executeEach_continuing hm₁ keyword

theorem MatchesAt.execute_succ (h : MatchesAt D D' rules n) (hrules : rules.lookup = .byDistance)
    (hm : MachineEmbedded D D' image m m')
    (hsees : Sees (m.into m' image) σ m.current m'.current)
    (hstepping : Stepping D D' rules (n + 1) N m k step home) {s s' : Stmt}
    (hs : StmtInset (InPlace D D') σ k step s s') :
    Matches D D' (n + 1) image m m' (FlowEmbedded D D')
      ((Exec.execute rules (n + 1) s >>= thenStep rules N home step) m)
      fun j => Exec.execute rules j s' m' := by
  -- What comes behind the statement has a lesser bound; each case gives one step of the bound to
  -- the second execution by `delay` before it looks at the statement.
  have hbefore := hstepping.of_le (Nat.le_succ n)
  cases hs with
  | expression hvalue =>
    refine .delay ?_ (isUnfinished_outOfFuel m')
    simp only [Exec.execute, bind_assoc, pure_bind, thenStep]
    apply Matches.bind (h.evaluate hm hsees hvalue)
    intro image₁ m₁ m₁' _ _ _ hm₁ _
    exact .pure hm₁ .normal
  -- The variable is defined on both sides, with `nil` or with values that correspond.
  | var hσ _ hvalue =>
    refine .delay ?_ (isUnfinished_outOfFuel m')
    cases hvalue with
    | none =>
      simp only [Exec.execute, bind_assoc, pure_bind, thenStep]
      apply Matches.bind (.define hm hsees hσ _ .nil)
      intro image₁ m₁ m₁' _ _ _ hm₁ _
      exact .pure hm₁ .normal
    | some hvalue =>
      simp only [Exec.execute, bind_assoc, pure_bind, thenStep]
      apply Matches.bind (h.evaluate hm hsees hvalue)
      intro image₁ m₁ m₁' value value' honward₁ hm₁ hvalue
      apply Matches.bind (.define hm₁ (hsees.onward honward₁) hσ _ hvalue)
      intro image₂ m₂ m₂' _ _ _ hm₂ _
      exact .pure hm₂ .normal
  -- The block is a new frame on both sides, within which the inset is entered.
  | block hbody =>
    refine .delay ?_ (isUnfinished_outOfFuel m')
    simp only [Exec.execute, bind_assoc, inFrame_thenStep]
    apply Matches.bind (.newInnerFrame hm)
    rintro image₁ m₁ m₁' frame frame' honward₁ hm₁ ⟨hW, rfl, rfl⟩
    have hframes : m₁.frames = m.frames.child m.current := congrArg Embedding.frames hW
    have hinner : Sees (m₁.into m₁' image₁) σ.enter m.frames.next m'.frames.next := by
      rw [hW]
      exact hsees.child
    apply Matches.inFrame
    exact h.executeEach (hm₁.setCurrent m.frames.next m'.frames.next) hinner
      (hbefore.enter hsees.lt hframes) hbody
  -- Values that correspond are truthy alike, so both executions take the same branch.
  | conditional hcondition hthen =>
    refine .delay ?_ (isUnfinished_outOfFuel m')
    simp only [Exec.execute, bind_assoc]
    apply Matches.bind (h.evaluate hm hsees hcondition)
    intro image₁ m₁ m₁' value value' honward₁ hm₁ hvalue
    simp only [hvalue.similar.isTruthy]
    by_cases htrue : value.isTruthy = true
    · simp only [htrue, if_true]
      exact h.execute hm₁ (hsees.onward honward₁) (hbefore.onward hsees.lt honward₁.left) hthen
    · simp only [htrue]
      exact .pure hm₁ .normal
  | alternative hcondition hthen helse =>
    refine .delay ?_ (isUnfinished_outOfFuel m')
    simp only [Exec.execute, bind_assoc]
    apply Matches.bind (h.evaluate hm hsees hcondition)
    intro image₁ m₁ m₁' value value' honward₁ hm₁ hvalue
    have hsees₁ := hsees.onward honward₁
    have hstepping₁ := hbefore.onward hsees.lt honward₁.left
    simp only [hvalue.similar.isTruthy]
    by_cases htrue : value.isTruthy = true
    · simp only [htrue, if_true]
      exact h.execute hm₁ hsees₁ hstepping₁ hthen
    · simp only [htrue]
      exact h.execute hm₁ hsees₁ hstepping₁ helse
  -- Behind a loop nothing steps, since the loop has taken every `continue`.
  | loop hcondition hbody hincrement =>
    refine .delay ?_ (isUnfinished_outOfFuel m')
    simp only [Exec.execute, iterate_thenStep]
    exact h.iterate hm hsees hcondition hbody hincrement
  -- Both functions see the frames of their own side, which correspond.
  | @function _ _ _ d d' hσ _ hd =>
    refine .delay ?_ (isUnfinished_outOfFuel m')
    simp only [Exec.execute, bind_assoc, pure_bind, thenStep, hd.name_eq]
    apply Matches.get_bind
    apply Matches.bind (.newFunction hm d d' m.current m'.current false)
    rintro image₁ m₁ m₁' f f' honward₁ hm₁ ⟨-, id, rfl, rfl⟩
    have hf : FunctionEmbedded D D' (m₁.into m₁' image₁) true ⟨id, d, m.current, false⟩
        ⟨id, d', m'.current, false⟩ :=
      ⟨rfl, fun _ => (hsees.extend honward₁.extends).image_eq hσ, rfl, σ, hd,
        hsees.extend honward₁.extends⟩
    apply Matches.bind (.define hm₁ (hsees.onward honward₁) hσ _ (.function hf))
    intro image₂ m₂ m₂' _ _ _ hm₂ _
    exact .pure hm₂ .normal
  | returning hvalue =>
    refine .delay ?_ (isUnfinished_outOfFuel m')
    cases hvalue with
    | none =>
      simp only [Exec.execute, pure_bind, thenStep]
      exact .pure hm (.returning .nil)
    | some hvalue =>
      simp only [Exec.execute, bind_assoc, pure_bind, thenStep]
      apply Matches.bind (h.evaluate hm hsees hvalue)
      intro image₁ m₁ m₁' value value' _ hm₁ hvalue
      exact .pure hm₁ (.returning hvalue)
  -- Jumps are the same on both sides; only a `continue` has something behind it.
  | breaking =>
    refine .delay ?_ (isUnfinished_outOfFuel m')
    simp only [Exec.execute, pure_bind, thenStep]
    exact .pure hm .breaking
  | continuing =>
    refine .delay ?_ (isUnfinished_outOfFuel m')
    simp only [Exec.execute, pure_bind, thenStep]
    exact .pure hm .continuing
  -- The class is declared on both sides, and its methods are inset like its surroundings.
  | «class» hσ _ hplace hmethods =>
    refine .delay ?_ (isUnfinished_outOfFuel m')
    simp only [Exec.execute, bind_assoc, pure_bind, thenStep]
    apply Matches.bind (.declareClass hrules hm hsees hσ _ hplace hmethods)
    intro image₁ m₁ m₁' _ _ _ hm₁ _
    exact .pure hm₁ .normal
  -- This is the loop whose increment stands in the body of the second one.
  | unrolled hloop =>
    cases hloop with
    | mk hcondition hbody hincrement =>
      refine .delay ?_ (isUnfinished_outOfFuel m')
      simp only [Exec.execute, iterate_thenStep]
      exact h.unrolled hm hsees hcondition hbody hincrement
  -- The second loop stands in a block of its own, with one more frame in front of it.
  | boxed hloop =>
    cases hloop with
    | mk hcondition hbody hincrement =>
      refine .delay ?_ (isUnfinished_outOfFuel m')
      simp only [Exec.execute, iterate_thenStep]
      apply Matches.boxed
      refine .delayed ?_ (isUnfinished_outOfFuel _)
      simp only [Exec.executeEach_singleton]
      refine .delayed ?_ (isUnfinished_outOfFuel _)
      simp only [Exec.execute]
      have hbox := (hm.box m'.current).setCurrent m.current m'.frames.next
      exact h.unrolled hbox hsees.box hcondition hbody hincrement
  -- A `continue` of this loop: on the second side the increment stands in front of it.
  | stepping hstep =>
    simp only [Exec.execute, pure_bind]
    exact hbefore.continuing hm hsees hstep _

theorem MatchesAt.executeEach_succ (h : MatchesAt D D' rules n)
    (hm : MachineEmbedded D D' image m m')
    (hsees : Sees (m.into m' image) σ m.current m'.current)
    (hstepping : Stepping D D' rules (n + 1) N m k step home) {ss ss' : List Stmt}
    (hss : StmtEachInset (InPlace D D') σ k step ss ss') :
    Matches D D' (n + 1) image m m' (FlowEmbedded D D')
      ((Exec.executeEach rules (n + 1) ss >>= thenStep rules N home step) m)
      fun j => Exec.executeEach rules j ss' m' := by
  have hbefore := hstepping.of_le (Nat.le_succ n)
  refine .delay ?_ (isUnfinished_outOfFuel m')
  cases hss with
  | nil =>
    simp only [Exec.executeEach, pure_bind, thenStep]
    exact .pure hm .normal
  | cons hs hrest =>
    rw [executeEach_thenStep]
    simp only [Exec.executeEach]
    apply Matches.bind (h.execute hm hsees hbefore hs)
    intro image₁ m₁ m₁' flow flow' honward hm₁ hflow
    cases hflow with
    | normal =>
      exact h.executeEach hm₁ (hsees.onward honward) (hbefore.onward hsees.lt honward.left) hrest
    | breaking => exact .pure hm₁ .breaking
    | continuing => exact .pure hm₁ .continuing
    | returning hvalue => exact .pure hm₁ (.returning hvalue)

/-! ### Loops -/

theorem MatchesAt.iterate_succ (h : MatchesAt D D' rules n) (hm : MachineEmbedded D D' image m m')
    (hsees : Sees (m.into m' image) σ m.current m'.current) {condition condition' : Expr}
    {body body' : Stmt} {increment increment' : Option Expr}
    (hcondition : ExprInset (InPlace D D') σ condition condition')
    (hbody : StmtInset (InPlace D D') σ 0 none body body')
    (hincrement : ExprIn?Inset (InPlace D D') σ increment increment') :
    Matches D D' (n + 1) image m m' (FlowEmbedded D D')
      (Exec.iterate rules (n + 1) condition body increment m)
      fun j => Exec.iterate rules j condition' body' increment' m' := by
  -- A turn takes one step of fuel on this side, and the other loop may take more.
  refine .delay ?_ (isUnfinished_outOfFuel m')
  simp only [Exec.iterate_succ]
  apply Matches.bind (h.evaluate hm hsees hcondition)
  intro image₁ m₁ m₁' value value' honward₁ hm₁ hvalue
  have hsees₁ := hsees.onward honward₁
  simp only [hvalue.similar.isTruthy]
  by_cases htrue : value.isTruthy = true
  · simp only [htrue, if_true]
    -- With no increment inset into the body, the bodies match as they are.
    have hrun := h.execute hm₁ hsees₁ (.none h.evaluate m₁ 0 m₁.current) hbody
    rw [bind_thenStep_none] at hrun
    apply Matches.bind hrun
    intro image₂ m₂ m₂' flow flow' honward₂ hm₂ hflow
    have hsees₂ := hsees₁.onward honward₂
    -- After the body both loops run the increment, if there is one, and turn again.
    have hnext : Matches D D' n image₂ m₂ m₂' (FlowEmbedded D D')
        (Exec.nextTurn rules n condition body increment m₂)
        fun j => Exec.nextTurn rules j condition' body' increment' m₂' := by
      cases hincrement with
      | none => exact h.iterate hm₂ hsees₂ hcondition hbody .none
      | some hstep =>
        apply Matches.bind (h.evaluate hm₂ hsees₂ hstep)
        intro image₃ m₃ m₃' _ _ honward₃ hm₃ _
        exact h.iterate hm₃ (hsees₂.onward honward₃) hcondition hbody (.some hstep)
    cases hflow with
    | normal => exact hnext
    | continuing => exact hnext
    | breaking => exact .pure hm₂ .normal
    | returning hvalue => exact .pure hm₂ (.returning hvalue)
  · simp only [htrue]
    exact .pure hm₁ .normal

/-- The body of a loop and its increment, and the block that does both. -/
theorem MatchesAt.turn (h : MatchesAt D D' rules n) (hm : MachineEmbedded D D' image m m')
    (hsees : Sees (m.into m' image) σ m.current m'.current) {body body' : Stmt}
    {increment increment' : Option Expr}
    (hbody : StmtInset (InPlace D D') σ.further 0 increment body body')
    (hincrement : ExprIn?Inset (InPlace D D') σ.further increment increment') :
    Matches D D' n image m m' (FlowEmbedded D D')
      (((Exec.execute rules n body >>= thenStep rules n m.current increment) >>=
        stepLast rules n increment) m)
      fun j => Exec.execute rules j (.block (body' :: Stmt.steps increment')) m' := by
  refine .delayed ?_ (isUnfinished_outOfFuel m')
  simp only [Exec.execute]
  apply Matches.boxed
  refine .delayed ?_ (isUnfinished_outOfFuel _)
  simp only [Exec.executeEach]
  have hbox := (hm.box m'.current).setCurrent m.current m'.frames.next
  have hinner : Sees (m.into { m' with frames := m'.frames.child m'.current } image) σ.further
      m.current m'.frames.next := hsees.box
  apply Matches.bind (h.execute hbox hinner (.start h.evaluate m increment) hbody)
  intro image₁ m₁ m₁' flow flow' honward hm₁ hflow
  have hsees₁ := Sees.onward hinner honward
  cases hflow with
  | normal =>
    cases hincrement with
    | none => exact .executeEach_nil hm₁
    | some hstep =>
      exact EvaluatesAt.expression_then h.evaluate hm₁ hsees₁ hstep fun _ _ _ => .executeEach_nil
  | continuing => exact .pure hm₁ .continuing
  | breaking => exact .pure hm₁ .breaking
  | returning hvalue => exact .pure hm₁ (.returning hvalue)

theorem MatchesAt.unrolled_succ (h : MatchesAt D D' rules n)
    (hm : MachineEmbedded D D' image m m')
    (hsees : Sees (m.into m' image) σ m.current m'.current) {condition condition' : Expr}
    {body body' : Stmt} {increment increment' : Option Expr}
    (hcondition : ExprInset (InPlace D D') σ condition condition')
    (hbody : StmtInset (InPlace D D') σ.further 0 increment body body')
    (hincrement : ExprIn?Inset (InPlace D D') σ.further increment increment') :
    Matches D D' (n + 1) image m m' (FlowEmbedded D D')
      (Exec.iterate rules (n + 1) condition body increment m)
      fun j => Exec.iterate rules j condition' (.block (body' :: Stmt.steps increment')) none m' := by
  refine .delay ?_ (isUnfinished_outOfFuel m')
  simp only [Exec.iterate_succ]
  apply Matches.bind (h.evaluate hm hsees hcondition)
  intro image₁ m₁ m₁' value value' honward₁ hm₁ hvalue
  have hsees₁ := hsees.onward honward₁
  simp only [hvalue.similar.isTruthy]
  by_cases htrue : value.isTruthy = true
  · simp only [htrue, if_true]
    refine .of_eq (turn_eq condition body increment m₁) ?_
    apply Matches.bind (h.turn hm₁ hsees₁ hbody hincrement)
    intro image₂ m₂ m₂' flow flow' honward₂ hm₂ hflow
    have hsees₂ := hsees₁.onward honward₂
    cases hflow with
    | normal => exact h.unrolled hm₂ hsees₂ hcondition hbody hincrement
    | continuing => exact h.unrolled hm₂ hsees₂ hcondition hbody hincrement
    | breaking => exact .pure hm₂ .normal
    | returning hvalue => exact .pure hm₂ (.returning hvalue)
  · simp only [htrue]
    exact .pure hm₁ .normal

/-! ### Everything together -/

theorem matchesAt_zero (D D' : Distances) (rules : Rules) : MatchesAt D D' rules 0 := by
  have hzero : ∀ {α β : Type} {image : Nat → Nat} {m m₁ m' : Machine}
      {post : Embedding → α → β → Prop} {y : Nat → End β}, (y 0).IsUnfinished →
      Matches D D' 0 image m m' post (.error .outOfFuel m₁) y := by
    intro α β image m m₁ m' post y hy
    refine .unfinished ?_
    intro j hj
    rw [Nat.le_zero.mp hj]
    exact hy
  constructor
  · intro image m m' σ e e' _ _ _
    exact hzero ⟨m', rfl⟩
  all_goals
    intro image m m'
    intros
    exact hzero ⟨m', rfl⟩

/-- Code at an inset matches the code that it is compared with, whatever the bound. -/
theorem matchesAt (D D' : Distances) {rules : Rules} (hrules : rules.lookup = .byDistance)
    (n : Nat) : MatchesAt D D' rules n := by
  induction n with
  | zero => exact matchesAt_zero D D' rules
  | succ n ih =>
    exact ⟨ih.evaluate_succ hrules, fun hm hsees => ih.evaluateEach_succ hm hsees,
      fun hm => ih.call_succ hm, fun hm => ih.callFunction_succ hm,
      fun hm hsees hstepping => ih.execute_succ hrules hm hsees hstepping,
      fun hm hsees hstepping => ih.executeEach_succ hm hsees hstepping,
      fun hm hsees => ih.iterate_succ hm hsees, fun hm hsees => ih.unrolled_succ hm hsees⟩

end Lox
