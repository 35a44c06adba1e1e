import Lox.Proofs.Execution.Moments

/-!
# Who takes a signal

A statement that does not end normally hands its signal on to the statement around it.
A `break` or `continue` is taken by the loop whose body is being executed, and a
`return` by the call that is under way: on the way from there to the statement that
raised the signal there is no other loop, and no other call.
-/

namespace Lox

open Resolution Exec

/-! ### How statements end -/

def Task.IsStatement : Task → Prop
  | .execute _ | .executeEach _ | .iterate _ _ _ => True
  | _ => False

/-- The task executes statements and is not a loop at its test. -/
def Task.InTurn : Task → Prop
  | .execute _ | .executeEach _ => True
  | _ => False

theorem Task.InTurn.isStatement {task : Task} (h : task.InTurn) : task.IsStatement := by
  cases task with
  | execute | executeEach => trivial
  | _ => cases h

/-- The statements of a moment end with a flow, in a machine. -/
def Moment.Ends (rules : Rules) (x : Moment) (flow : Flow) (m : Machine) : Prop :=
  match x.task with
  | .execute s => Exec.execute rules x.fuel s x.machine = .ok flow m
  | .executeEach ss => Exec.executeEach rules x.fuel ss x.machine = .ok flow m
  | .iterate condition body increment =>
    Exec.iterate rules x.fuel condition body increment x.machine = .ok flow m
  | _ => False

theorem Moment.Ends.isStatement {rules : Rules} {x : Moment} {flow : Flow} {m : Machine}
    (h : x.Ends rules flow m) : x.task.IsStatement := by
  obtain ⟨fuel, task, m₀⟩ := x
  cases task with
  | execute | executeEach | iterate => trivial
  | _ => cases h

/-- From one moment to another one inside of it, through tasks of one sort only. -/
inductive Inward (rules : Rules) (through : Task → Prop) : Moment → Moment → Prop where
  | here {x : Moment} : Inward rules through x x
  | step {x y z : Moment} : Inward rules through x y → Leads rules y z → through y.task →
      through z.task → Inward rules through x z

/--
A loop takes a signal: it has led to the moment in the present turn of its body, not
through another loop or a call, the body ends with the signal, and the loop ends
normally behind a `break`, and goes on with the next turn behind a `continue`.
-/
inductive LoopTakes (rules : Rules) (start y : Moment) (flow : Flow) : Prop where
  | mk {fuel : Nat} {m m₁ m₂ : Machine} {condition : Expr} {body : Stmt}
      {increment : Option Expr} :
      Passes rules start ⟨fuel + 1, .iterate condition body increment, m⟩ →
      Leads rules ⟨fuel + 1, .iterate condition body increment, m⟩ ⟨fuel, .execute body, m₁⟩ →
      Inward rules Task.InTurn ⟨fuel, .execute body, m₁⟩ y →
      Moment.Ends rules ⟨fuel, .execute body, m₁⟩ flow m₂ →
      (flow = .breaking →
        Exec.iterate rules (fuel + 1) condition body increment m = .ok .normal m₂) →
      (flow = .continuing →
        Exec.iterate rules (fuel + 1) condition body increment m =
          Exec.nextTurn rules fuel condition body increment m₂) →
      LoopTakes rules start y flow

/--
A call takes a signal: it has led to the moment inside of its body, not through another
call, the body ends with the signal, and the call yields its result.
-/
inductive CallTakes (rules : Rules) (start y : Moment) (flow : Flow) : Prop where
  | mk {fuel : Nat} {m m₁ m₂ : Machine} {f : Function} {arguments : List Value} {line : Nat} :
      Passes rules start ⟨fuel + 1, .callFunction f arguments line, m⟩ →
      Leads rules ⟨fuel + 1, .callFunction f arguments line, m⟩
        ⟨fuel, .executeEach f.declaration.body, m₁⟩ →
      Inward rules Task.IsStatement ⟨fuel, .executeEach f.declaration.body, m₁⟩ y →
      Moment.Ends rules ⟨fuel, .executeEach f.declaration.body, m₁⟩ flow m₂ →
      Exec.callFunction rules (fuel + 1) f arguments line m =
        Exec.callResult f flow line { m₂ with current := m.current } →
      CallTakes rules start y flow

/-- Every signal is taken by a construct that it belongs to. -/
def Taken (rules : Rules) (start y : Moment) (flow : Flow) : Prop :=
  match flow with
  | .normal => True
  | .breaking | .continuing => LoopTakes rules start y flow
  | .returning _ => CallTakes rules start y flow

/-! ### Handing on -/

variable {V : Visit → Prop} {rules : Rules} {start x y : Moment} {flow : Flow} {m : Machine}

theorem Exec.bind_of_ok {α β : Type} {p : Exec α} {f : α → Exec β} {m m' : Machine} {a : α}
    (h : p m = .ok a m') : (p >>= f) m = f a m' := by
  change EStateM.bind p f m = f a m'
  unfold EStateM.bind
  rw [h]

theorem Exec.bind_of_error {α β : Type} {p : Exec α} {f : α → Exec β} {m m' : Machine}
    {e : Interrupt} (h : p m = .error e m') : (p >>= f) m = .error e m' := by
  change EStateM.bind p f m = .error e m'
  unfold EStateM.bind
  rw [h]

theorem Exec.of_bind_ok {α β : Type} {p : Exec α} {f : α → Exec β} {m m'' : Machine} {b : β}
    (h : (p >>= f) m = .ok b m'') : ∃ a m', p m = .ok a m' ∧ f a m' = .ok b m'' := by
  change EStateM.bind p f m = .ok b m'' at h
  unfold EStateM.bind at h
  split at h
  · rename_i a m' hp
    exact ⟨a, m', hp, h⟩
  · cases h

theorem Exec.inFrame_of_ok {α : Type} {p : Exec α} {m m' : Machine} {a : α} {frame : FrameId}
    (h : p { m with current := frame } = .ok a m') :
    inFrame frame p m = .ok a { m' with current := m.current } := by
  unfold inFrame
  rw [h]

/-- The turn of a loop, after its test and its body. -/
theorem Exec.iterate_of_turn {fuel : Nat} {condition : Expr} {body : Stmt}
    (increment : Option Expr) {value : Value} {m m₁ m₂ : Machine}
    (htest : Exec.evaluate rules fuel condition m = .ok value m₁) (htruthy : value.isTruthy = true)
    (hbody : Exec.execute rules fuel body m₁ = .ok flow m₂) :
    Exec.iterate rules (fuel + 1) condition body increment m =
      match flow with
      | .normal | .continuing => Exec.nextTurn rules fuel condition body increment m₂
      | .breaking => .ok .normal m₂
      | .returning value => .ok (.returning value) m₂ := by
  rw [Exec.iterate_succ, Exec.bind_of_ok htest, if_pos htruthy, Exec.bind_of_ok hbody]
  cases flow <;> rfl

theorem Exec.iterate_of_goesOn {fuel : Nat} {condition : Expr} {body : Stmt}
    {increment : Option Expr} {value : Value} {m m₁ m₂ : Machine}
    (htest : Exec.evaluate rules fuel condition m = .ok value m₁) (htruthy : value.isTruthy = true)
    (hbody : Exec.execute rules fuel body m₁ = .ok flow m₂)
    (hflow : flow = .normal ∨ flow = .continuing) :
    Exec.iterate rules (fuel + 1) condition body increment m =
      Exec.nextTurn rules fuel condition body increment m₂ := by
  rw [Exec.iterate_of_turn increment htest htruthy hbody]
  rcases hflow with rfl | rfl <;> rfl

/-- A block, a branch and a sequence end with the signal of their part. -/
theorem Leads.hands_on (h : Leads rules x y) (hx : x.task.InTurn) (hends : y.Ends rules flow m)
    (hsignal : flow ≠ .normal) : ∃ m', x.Ends rules flow m' := by
  cases h with
  | @block fuel m₀ body frame m₁ hframe =>
    refine ⟨{ m with current := m₁.current }, ?_⟩
    simp only [Moment.Ends, Exec.execute]
    rw [Exec.bind_of_ok hframe]
    exact Exec.inFrame_of_ok hends
  | thenBranch htest htruthy =>
    refine ⟨m, ?_⟩
    simp only [Moment.Ends, Exec.execute]
    rw [Exec.bind_of_ok htest, if_pos htruthy]
    exact hends
  | elseBranch htest htruthy =>
    refine ⟨m, ?_⟩
    simp only [Moment.Ends, Exec.execute]
    rw [Exec.bind_of_ok htest, if_neg (by simp [htruthy])]
    exact hends
  | loop => exact ⟨m, by simpa only [Moment.Ends, Exec.execute] using hends⟩
  | firstStmt =>
    refine ⟨m, ?_⟩
    simp only [Moment.Ends, Exec.executeEach]
    rw [Exec.bind_of_ok hends]
    cases flow with
    | normal => exact absurd rfl hsignal
    | _ => rfl
  | nextStmts hfirst =>
    refine ⟨m, ?_⟩
    simp only [Moment.Ends, Exec.executeEach]
    rw [Exec.bind_of_ok hfirst]
    exact hends
  | _ => first | exact absurd hx (fun h => h) | exact absurd hends (fun h => h)

theorem Exec.nextTurn_of_evaluate {fuel : Nat} {condition step : Expr} {body : Stmt}
    {value : Value} {m m' : Machine} (hstep : Exec.evaluate rules fuel step m = .ok value m') :
    Exec.nextTurn rules fuel condition body (some step) m =
      Exec.iterate rules fuel condition body (some step) m' :=
  Exec.bind_of_ok hstep

/-- A loop ends with the signal of a later turn, and with a `return` in its body. -/
theorem Leads.hands_on_loop (h : Leads rules x y) (hx : ¬ x.task.InTurn)
    (hstatement : x.task.IsStatement) (hends : y.Ends rules flow m) :
    (∃ m', x.Ends rules flow m') ∨
      ∃ fuel condition body increment value m₀ m₁,
        x = ⟨fuel + 1, .iterate condition body increment, m₀⟩ ∧ y = ⟨fuel, .execute body, m₁⟩ ∧
          Exec.evaluate rules fuel condition m₀ = .ok value m₁ ∧ value.isTruthy = true := by
  cases h with
  | turn htest htruthy => exact .inr ⟨_, _, _, _, _, _, _, rfl, rfl, htest, htruthy⟩
  | again htest htruthy hbody hflow =>
    refine .inl ⟨m, ?_⟩
    simp only [Moment.Ends]
    rw [Exec.iterate_of_goesOn htest htruthy hbody hflow]
    exact hends
  | againAfter htest htruthy hbody hflow hstep =>
    refine .inl ⟨m, ?_⟩
    simp only [Moment.Ends]
    rw [Exec.iterate_of_goesOn htest htruthy hbody hflow, Exec.nextTurn_of_evaluate hstep]
    exact hends
  | test => cases hends
  | increment => cases hends
  | _ => first | exact absurd trivial hx | cases hstatement

/-- What takes the signal of a statement takes that of its part. -/
theorem Taken.inward (h : Taken rules start x flow) (hleads : Leads rules x y)
    (hx : x.task.IsStatement) (hy : y.task.IsStatement)
    (hturn : (∀ value, flow ≠ .returning value) → x.task.InTurn ∧ y.task.InTurn) :
    Taken rules start y flow := by
  cases flow with
  | normal => trivial
  | breaking =>
    obtain ⟨hpasses, hbody, hinward, hends, hbreak, hcontinue⟩ := h
    obtain ⟨hx, hy⟩ := hturn nofun
    exact ⟨hpasses, hbody, .step hinward hleads hx hy, hends, hbreak, hcontinue⟩
  | continuing =>
    obtain ⟨hpasses, hbody, hinward, hends, hbreak, hcontinue⟩ := h
    obtain ⟨hx, hy⟩ := hturn nofun
    exact ⟨hpasses, hbody, .step hinward hleads hx hy, hends, hbreak, hcontinue⟩
  | returning value =>
    obtain ⟨hpasses, hbody, hinward, hends, hresult⟩ := h
    exact ⟨hpasses, hbody, .step hinward hleads hx hy, hends, hresult⟩

/-! ### Signals stay within their construct -/

/-- A loop ends normally or with a `return`. -/
theorem Exec.flow_of_iterate {fuel : Nat} {condition : Expr} {body : Stmt}
    {increment : Option Expr} {m m' : Machine}
    (h : Exec.iterate rules fuel condition body increment m = .ok flow m') :
    flow = .normal ∨ ∃ value, flow = .returning value := by
  induction fuel generalizing m with
  | zero => cases h
  | succ fuel ih =>
    rw [Exec.iterate_succ] at h
    obtain ⟨value, m₁, -, h⟩ := Exec.of_bind_ok h
    split at h
    · obtain ⟨turn, m₂, -, h⟩ := Exec.of_bind_ok h
      cases turn with
      | breaking =>
        cases h
        exact .inl rfl
      | returning value =>
        cases h
        exact .inr ⟨value, rfl⟩
      | normal | continuing =>
        cases increment with
        | none => exact ih h
        | some step =>
          obtain ⟨-, m₃, -, h⟩ := Exec.of_bind_ok h
          exact ih h
    · cases h
      exact .inl rfl

theorem Moment.Ends.of_loop (h : x.Ends rules flow m) (hx : ¬ x.task.InTurn) :
    flow = .normal ∨ ∃ value, flow = .returning value := by
  obtain ⟨fuel, task, m₀⟩ := x
  cases task with
  | iterate => exact Exec.flow_of_iterate h
  | execute | executeEach => exact absurd trivial hx
  | _ => cases h

/-- The body of a call ends normally or with a `return`, which has no value in an initializer. -/
theorem Moment.Ok.body_ends {f : Function} {arguments : List Value} {line : Nat}
    (h : x.Ok V) (hcall : x.task = .callFunction f arguments line) (hleads : Leads rules x y)
    (hends : y.Ends rules flow m) :
    flow = .normal ∨
      ∃ value, flow = .returning value ∧ (f.isInitializer = true → value = .nil) := by
  obtain ⟨hm, htask⟩ := h
  cases hleads with
  | @body fuel m₀ f' arguments' line' frame m₁ hbind =>
    cases hcall
    obtain ⟨hf, hvalues, harity⟩ := htask
    obtain ⟨routine, r, hroutine, hmirrors, hkind⟩ := hf.routine
    obtain ⟨hafter, hbound, -⟩ :=
      Keeps.of_ok (Keeps.bindArguments hm hroutine hmirrors hvalues harity) hbind
    have hinner : Sound V { m₁ with current := frame } := hafter.sound.of_eq rfl rfl rfl
    have hflow := (Keeps.of_ok
      ((soundAt V rules fuel).executeEach hinner hbound hroutine.body) hends).2
    -- The walk enters the body of a routine with no loop around it.
    have hbegin := sameOuter_declareParameters f.declaration.parameters
      ({ r with routine := routine, loopDepth := 0 } : Resolution).openScope
    cases flow with
    | normal => exact .inl rfl
    | breaking => exact absurd hbegin.loopDepth hflow
    | continuing => exact absurd hbegin.loopDepth hflow
    | returning value =>
      refine .inr ⟨value, rfl, ?_⟩
      intro hinit
      exact hflow.2.2 (hbegin.routine.trans (hkind hinit))
  | _ => cases hcall

/-- A call takes the signal that its body ends with. -/
theorem Moment.Ok.callTakes (h : x.Ok V) (hpasses : Passes rules start x)
    (hleads : Leads rules x y) (hx : ¬ x.task.IsStatement) (hends : y.Ends rules flow m) :
    CallTakes rules start y flow ∧
      (flow = .normal ∨ ∃ value, flow = .returning value) := by
  have hbody := hleads
  cases hleads with
  | @body fuel m₀ f arguments line frame m₁ hbind =>
    constructor
    · refine .mk hpasses hbody .here hends ?_
      obtain ⟨hm, hf, hvalues, harity⟩ := h
      obtain ⟨routine, r, hroutine, hmirrors, -⟩ := hf.routine
      have hcurrent := (Keeps.of_ok
        (Keeps.bindArguments hm hroutine hmirrors hvalues harity) hbind).1.current
      simp only [Exec.callFunction]
      rw [Exec.bind_of_ok hbind, Exec.bind_of_ok (Exec.inFrame_of_ok hends), hcurrent]
    · rcases h.body_ends rfl hbody hends with hnormal | ⟨value, hvalue, -⟩
      · exact .inl hnormal
      · exact .inr ⟨value, hvalue⟩
  | _ => first | exact absurd trivial hx | cases hends

/-- Every signal of a run that itself ends normally is taken within the run. -/
theorem Moment.Ok.taken (h : start.Ok V)
    (hnormal : ∀ flow m, start.Ends rules flow m → flow = .normal)
    (hpasses : Passes rules start y) (hends : y.Ends rules flow m) :
    Taken rules start y flow := by
  -- On the way back from the statement to the start, a signal is handed on until it is taken.
  induction hpasses generalizing flow m with
  | start =>
    rw [hnormal flow m hends]
    trivial
  | @step x y hpasses hleads ih =>
    by_cases hsignal : flow = .normal
    · rw [hsignal]
      trivial
    have hy : y.task.IsStatement := hends.isStatement
    have hloop : ¬ y.task.InTurn → ∃ value, flow = .returning value := by
      intro hy'
      exact (hends.of_loop hy').resolve_left hsignal
    by_cases hturn : x.task.InTurn
    · obtain ⟨m', hx⟩ := hleads.hands_on hturn hends hsignal
      refine (ih hx).inward hleads hturn.isStatement hy ?_
      intro hreturning
      refine ⟨hturn, Classical.byContradiction fun hy' => ?_⟩
      obtain ⟨value, hvalue⟩ := hloop hy'
      exact hreturning value hvalue
    by_cases hx : x.task.IsStatement
    · rcases hleads.hands_on_loop hturn hx hends with ⟨m', hends'⟩ | hturn'
      · obtain ⟨value, rfl⟩ := (hends'.of_loop hturn).resolve_left hsignal
        exact (ih hends').inward hleads hx hy fun hreturning => absurd rfl (hreturning value)
      · obtain ⟨fuel, condition, body, increment, value, m₀, m₁, rfl, rfl, htest, htruthy⟩ := hturn'
        have hiterate := Exec.iterate_of_turn increment htest htruthy hends
        cases flow with
        | normal => exact absurd rfl hsignal
        | breaking => exact .mk hpasses hleads .here hends (fun _ => hiterate) nofun
        | continuing => exact .mk hpasses hleads .here hends nofun fun _ => hiterate
        | returning result =>
          refine (ih hiterate).inward hleads hx hy fun hreturning => absurd rfl (hreturning result)
    · obtain ⟨htakes, hflow⟩ := (h.passes hpasses).callTakes hpasses hleads hx hends
      obtain ⟨value, rfl⟩ := hflow.resolve_left hsignal
      exact htakes

/-! ### Statements that were executed -/

theorem Exec.of_executeEach_normal {fuel : Nat} {s : Stmt} {rest : List Stmt} {m m' : Machine}
    (h : Exec.executeEach rules (fuel + 1) (s :: rest) m = .ok .normal m') :
    ∃ m₁, Exec.execute rules fuel s m = .ok .normal m₁ ∧
      Exec.executeEach rules fuel rest m₁ = .ok .normal m' := by
  simp only [Exec.executeEach] at h
  obtain ⟨flow, m₁, hs, hrest⟩ := Exec.of_bind_ok h
  cases flow with
  | normal => exact ⟨m₁, hs, hrest⟩
  | _ => cases hrest

theorem Passes.after {x y z : Moment} (h : Passes rules y z) (hleads : Leads rules x y) :
    Passes rules x z := by
  induction h with
  | start => exact .step .start hleads
  | step _ hnext ih => exact .step ih hnext

/-- Where statements end normally, each of them was executed and ended normally. -/
theorem Exec.each_executed {fuel : Nat} {before after : List Stmt} {s : Stmt} {m m' : Machine}
    (h : Exec.executeEach rules fuel (before ++ s :: after) m = .ok .normal m') :
    ∃ k m₁ m₂, Passes rules ⟨fuel, .executeEach (before ++ s :: after), m⟩
        ⟨k + 1, .executeEach (s :: after), m₁⟩ ∧
      Exec.execute rules k s m₁ = .ok .normal m₂ := by
  induction before generalizing fuel m with
  | nil =>
    cases fuel with
    | zero => cases h
    | succ fuel =>
      obtain ⟨m₁, hs, -⟩ := Exec.of_executeEach_normal h
      exact ⟨fuel, m, m₁, .start, hs⟩
  | cons first before ih =>
    cases fuel with
    | zero => cases h
    | succ fuel =>
      obtain ⟨m₁, hfirst, hrest⟩ := Exec.of_executeEach_normal h
      obtain ⟨k, m₂, m₃, hpasses, hs⟩ := ih hrest
      exact ⟨k, m₂, m₃, hpasses.after (.nextStmts hfirst), hs⟩

end Lox
