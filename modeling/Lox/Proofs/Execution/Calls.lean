import Lox.Proofs.Execution.Bound
import Lox.Proofs.Execution.Failures

/-!
# Calls under way

The machine counts the calls under way.  Their number is known without the counter: from
the start of a run to one of its moments some call expressions have entered their callee,
and the callee has not come to its end.  Both numbers are the same at every moment, and
at the end of every task as well.  So a call overflows exactly when as many calls as the
limit allows are under way, and before that the limit makes no difference.
-/

namespace Lox

open Exec

/-- The task is the execution of a callee. -/
def Task.IsCallee : Task → Prop
  | .call _ _ _ => True
  | _ => False

/--
The call expressions whose callee is being executed at a moment, the latest first.  A call
of a class is one call together with its initializer, and a call of a native function
counts like all others.
-/
inductive UnderWay (rules : Rules) (start : Moment) : List Moment → Moment → Prop where
  | start : UnderWay rules start [] start
  | part {calls : List Moment} {x y : Moment} : UnderWay rules start calls x → Leads rules x y →
      ¬ y.task.IsCallee → UnderWay rules start calls y
  | callee {calls : List Moment} {x y : Moment} : UnderWay rules start calls x →
      Leads rules x y → y.task.IsCallee → UnderWay rules start (x :: calls) y

variable {rules : Rules} {start x y : Moment} {calls : List Moment} {line : Nat}

/-- A run passes through the moments at which some calls are under way. -/
theorem passes_iff_underWay : Passes rules start x ↔ ∃ calls, UnderWay rules start calls x := by
  constructor
  · intro h
    induction h with
    | start => exact ⟨[], .start⟩
    | @step x y _ hleads ih =>
      obtain ⟨calls, hcalls⟩ := ih
      by_cases hcallee : y.task.IsCallee
      · exact ⟨x :: calls, .callee hcalls hleads hcallee⟩
      · exact ⟨calls, .part hcalls hleads hcallee⟩
  · rintro ⟨calls, h⟩
    induction h with
    | start => exact .start
    | part _ hleads _ ih => exact .step ih hleads
    | callee _ hleads _ ih => exact .step ih hleads

/-! ### The counter -/

theorem Exec.depth_of_ok {α : Type} {p : Exec α} {m m' : Machine} {a : α} (hp : Restores p)
    (h : p m = .ok a m') : m'.depth = m.depth :=
  (hp.of_ok h).depth

/-- A part that is a callee is counted, and there is room for it. -/
def Counted (rules : Rules) (x y : Moment) : Prop :=
  (y.task.IsCallee → y.machine.depth = x.machine.depth + 1 ∧ x.machine.depth < rules.callLimit) ∧
    (¬ y.task.IsCallee → y.machine.depth = x.machine.depth)

theorem Counted.of_eq (hdepth : y.machine.depth = x.machine.depth) (hy : ¬ y.task.IsCallee) :
    Counted rules x y :=
  ⟨fun h => absurd h hy, fun _ => hdepth⟩

/-- Behind the test and the body of a loop as many calls are under way as before. -/
theorem Exec.depth_of_turn {fuel : Nat} {condition : Expr} {body : Stmt} {m m₁ m₂ : Machine}
    {value : Value} {flow : Flow} (htest : Exec.evaluate rules fuel condition m = .ok value m₁)
    (hbody : Exec.execute rules fuel body m₁ = .ok flow m₂) : m₂.depth = m.depth :=
  (depth_of_ok ((restoresAt rules fuel).execute body) hbody).trans
    (depth_of_ok ((restoresAt rules fuel).evaluate condition) htest)

theorem Leads.counted (h : Leads rules x y) : Counted rules x y := by
  cases h with
  -- The first part starts in the machine of the task, and what ends well leaves the counter as
  -- it was; only the check of a call adds one.
  | group | unary | binaryLeft | logicalLeft | assign | callee | get | setObject => exact .of_eq rfl id
  | firstExpr | function | expression | var | condition | loop | returning => exact .of_eq rfl id
  | firstStmt | test => exact .of_eq rfl id
  | binaryRight hleft | logicalRight hleft =>
    exact .of_eq (depth_of_ok ((restoresAt rules _).evaluate _) hleft) id
  | arguments hcallee => exact .of_eq (depth_of_ok ((restoresAt rules _).evaluate _) hcallee) id
  -- The call itself, checked against the limit.
  | @call fuel m callee paren arguments value m₁ values m₂ m₃ hcallee harguments hcheck =>
    obtain ⟨rfl, -, hlimit⟩ := of_checkCall_ok hcheck
    have hdepth : m₃.depth = m.depth :=
      (depth_of_ok ((restoresAt rules fuel).evaluateEach arguments) harguments).trans
        (depth_of_ok ((restoresAt rules fuel).evaluate callee) hcallee)
    rw [hdepth] at hlimit
    exact ⟨fun _ => ⟨congrArg (· + 1) hdepth, hlimit⟩, fun h => absurd trivial h⟩
  | setValue hobject => exact .of_eq (depth_of_ok ((restoresAt rules _).evaluate _) hobject) id
  | nextExprs hfirst => exact .of_eq (depth_of_ok ((restoresAt rules _).evaluate _) hfirst) id
  | initializer hinstance hmethod hbind =>
    have hdepth := (depth_of_ok (Restores.bindMethod _ _) hbind).trans
      (depth_of_ok (Restores.newInstance _) hinstance)
    exact .of_eq hdepth id
  -- Binding the arguments and opening a frame count nothing.
  | @body fuel m f arguments line frame m' hbind =>
    have hdepth : m'.depth = m.depth := depth_of_ok (Restores.bindArguments _ _) hbind
    exact .of_eq hdepth id
  | @block fuel m body frame m' hframe =>
    have hdepth : m'.depth = m.depth := depth_of_ok Restores.newInnerFrame hframe
    exact .of_eq hdepth id
  | thenBranch htest _ | elseBranch htest _ =>
    exact .of_eq (depth_of_ok ((restoresAt rules _).evaluate _) htest) id
  | nextStmts hfirst => exact .of_eq (depth_of_ok ((restoresAt rules _).execute _) hfirst) id
  | turn htest _ => exact .of_eq (depth_of_ok ((restoresAt rules _).evaluate _) htest) id
  | increment htest _ hbody _ => exact .of_eq (depth_of_turn htest hbody) id
  | again htest _ hbody _ => exact .of_eq (depth_of_turn htest hbody) id
  | againAfter htest _ hbody _ hstep =>
    have hdepth := depth_of_ok ((restoresAt rules _).evaluate _) hstep
    exact .of_eq (hdepth.trans (depth_of_turn htest hbody)) id

/-- The counter is the number of the calls under way, of which there are not too many. -/
theorem UnderWay.counted (h : UnderWay rules start calls x) (hstart : start.machine.depth = 0) :
    x.machine.depth = calls.length ∧ calls.length ≤ rules.callLimit := by
  induction h with
  | start => exact ⟨hstart, Nat.zero_le _⟩
  | part _ hleads hcallee ih => exact ⟨(hleads.counted.2 hcallee).trans ih.1, ih.2⟩
  | callee _ hleads hcallee ih =>
    obtain ⟨hdepth, hlimit⟩ := hleads.counted.1 hcallee
    rw [ih.1] at hdepth hlimit
    exact ⟨hdepth, hlimit⟩

/-- However a task ends, as many calls are under way as at its beginning. -/
theorem Moment.depth_final (rules : Rules) (x : Moment) :
    (x.final rules).depth = x.machine.depth := by
  obtain ⟨fuel, task, m⟩ := x
  cases task with
  | evaluate e => exact ((restoresAt rules fuel).evaluate e m).depth
  | evaluateEach es => exact ((restoresAt rules fuel).evaluateEach es m).depth
  | call callee arguments line => exact ((restoresAt rules fuel).call callee arguments line m).depth
  | callFunction f arguments line =>
    exact ((restoresAt rules fuel).callFunction f arguments line m).depth
  | execute s => exact ((restoresAt rules fuel).execute s m).depth
  | executeEach ss => exact ((restoresAt rules fuel).executeEach ss m).depth
  | iterate condition body increment =>
    exact ((restoresAt rules fuel).iterate condition body increment m).depth

/-! ### Overflows -/

/-- When a call is attempted, as many calls are under way as where its expression began. -/
theorem Attempts.depth {callee : Value} {values : List Value} {paren : Token} {m : Machine}
    (h : Attempts rules x callee values paren m) : m.depth = x.machine.depth := by
  cases h with
  | @mk fuel m₀ calleeExpr paren arguments value m₁ values m₂ hcallee harguments =>
    exact (depth_of_ok ((restoresAt rules fuel).evaluateEach arguments) harguments).trans
      (depth_of_ok ((restoresAt rules fuel).evaluate calleeExpr) hcallee)

/-- A task raises an overflow itself exactly when it attempts one call too many. -/
theorem Moment.raises_overflow_iff :
    x.Raises rules ⟨.stackOverflow, line⟩ ↔ x.Overflows rules line := by
  constructor
  · rintro ⟨hfails, hparts⟩
    rcases Moment.overflowsWithin hfails with ⟨y, hleads, hy⟩ | hoverflows
    · exact absurd hy (hparts y hleads)
    · exact hoverflows
  · rintro ⟨callee, values, paren, m, hattempts, harity, hlimit, hline⟩
    cases hattempts with
    | @mk fuel m₀ calleeExpr _ arguments _ m₁ _ _ hcallee harguments =>
      have hcheck := checkCall_overflow_iff.mpr ⟨harity, hlimit, hline⟩
      refine ⟨.after hcallee (.after harguments hcheck.bind), ?_⟩
      intro y hleads hy
      cases hleads with
      | callee => exact hy.not_ok hcallee
      | arguments hcallee' =>
        cases hcallee.symm.trans hcallee'
        exact hy.not_ok harguments
      | call hcallee' harguments' hcheck' =>
        cases hcallee.symm.trans hcallee'
        cases harguments.symm.trans harguments'
        exact hcheck.not_ok hcheck'

theorem Leads.fuel_lt (h : Leads rules x y) : y.fuel < x.fuel := by
  cases h <;> exact Nat.lt_succ_self _

/-- A task overflows the calls exactly when the way from it leads to one call too many. -/
theorem Moment.fails_overflow_iff :
    x.Fails rules ⟨.stackOverflow, line⟩ ↔ ∃ y, Passes rules x y ∧ y.Overflows rules line := by
  constructor
  · intro h
    induction hfuel : x.fuel using Nat.strongRecOn generalizing x with
    | ind fuel ih =>
      rcases Moment.overflowsWithin h with ⟨y, hleads, hy⟩ | hoverflows
      · obtain ⟨z, hpasses, hz⟩ := ih y.fuel (hfuel ▸ hleads.fuel_lt) hy rfl
        exact ⟨z, hpasses.after hleads, hz⟩
      · exact ⟨x, .start, hoverflows⟩
  · rintro ⟨y, hpasses, hy⟩
    exact hpasses.fails (Moment.raises_overflow_iff.mpr hy).1

/-! ### Another limit -/

def Interrupt.IsOverflow : Interrupt → Prop
  | .error e => e.cause = .stackOverflow
  | .outOfFuel => False

/-- Checks with a greater limit give the same result unless the calls overflow. -/
theorem Exec.checkCall_limit {limit : Nat} (hlimit : rules.callLimit ≤ limit) (callee : Value)
    (count line : Nat) :
    Unless Interrupt.IsOverflow (checkCall rules callee count line)
      (checkCall (rules.limit limit) callee count line) := by
  intro m
  rw [checkCall_eq, checkCall_eq]
  cases callee.arity? with
  | none => exact .inr rfl
  | some arity =>
    by_cases hcount : count = arity
    · by_cases hdepth : rules.callLimit ≤ m.depth
      · exact .inl ⟨.error ⟨.stackOverflow, line⟩, m, by simp [hcount, hdepth], rfl⟩
      · have hdepth' : ¬ limit ≤ m.depth := fun h => hdepth (Nat.le_trans hlimit h)
        refine .inr ?_
        simp [Rules.limit, hcount, hdepth, hdepth']
    · exact .inr (by simp [hcount])

theorem related_limit (fuel : Nat) {limit : Nat} (hlimit : rules.callLimit ≤ limit) :
    RelatedAt (Exec.Unless Interrupt.IsOverflow) rules limit fuel fuel := by
  induction fuel with
  | zero => exact .none (Exec.Unless.congruence _)
  | succ fuel ih =>
    exact ih.succ (Exec.Unless.congruence _) fun callee count line =>
      checkCall_limit hlimit callee count line

end Lox
