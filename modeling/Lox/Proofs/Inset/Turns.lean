import Lox.Proofs.Execution.Restored
import Lox.Proofs.Inset.Steps

/-!
# Turns of loops

In the body of a loop, the first execution evaluates the increment behind a `continue` only
when the loop has got the signal, and the second one does so right before it.  In between
nothing happens but that frames are left, so the statements of the body are followed as if
the first execution evaluated the increment at once, in the frame of the loop.
-/

namespace Lox

open Exec

variable {rules : Rules} {n N : Nat} {step : Option Expr} {home : FrameId}

/-- What the first execution does at once behind a `continue`. -/
def Exec.thenStep (rules : Rules) (N : Nat) (home : FrameId) (step : Option Expr) (flow : Flow) :
    Exec Flow :=
  match flow with
  | .continuing =>
    match step with
    | some e => do
      let _ ← inFrame home (evaluate rules N e)
      return .continuing
    | none => return .continuing
  | flow => return flow

theorem Exec.thenStep_none (rules : Rules) (N : Nat) (home : FrameId) :
    thenStep rules N home none = Pure.pure := by
  funext flow
  cases flow <;> rfl

/-- Without an increment there is nothing to do. -/
theorem Exec.bind_thenStep_none (x : Exec Flow) (rules : Rules) (N : Nat) (home : FrameId) :
    x >>= thenStep rules N home none = x := by
  rw [thenStep_none, bind_pure]

/-- Where execution goes on does not matter for what is done in the frame of the loop. -/
theorem Exec.thenStep_setCurrent (flow : Flow) (m : Machine) (f : FrameId) :
    thenStep rules N home step flow { m with current := f } =
      End.behind (fun m₁ => { m₁ with current := f }) (thenStep rules N home step flow m) := by
  cases flow with
  | continuing =>
    cases step with
    | none => rfl
    | some e =>
      change (inFrame home (evaluate rules N e) >>= fun _ => Pure.pure Flow.continuing)
          { m with current := f } = End.behind _
        ((inFrame home (evaluate rules N e) >>= fun _ => Pure.pure Flow.continuing) m)
      simp only [Bind.bind, EStateM.bind, inFrame_eq]
      cases evaluate rules N e { m with current := home } <;> rfl
  | _ => rfl

theorem Exec.inFrame_thenStep (f : FrameId) (x : Exec Flow) :
    inFrame f x >>= thenStep rules N home step = inFrame f (x >>= thenStep rules N home step) := by
  funext m
  simp only [Bind.bind, EStateM.bind, inFrame_eq]
  cases x { m with current := f } with
  | ok flow m₁ => exact thenStep_setCurrent flow m₁ m.current
  | error e m₁ => rfl

theorem Exec.executeEach_thenStep (s : Stmt) (rest : List Stmt) :
    executeEach rules (n + 1) (s :: rest) >>= thenStep rules N home step =
      (execute rules n s >>= thenStep rules N home step) >>= fun flow =>
        match flow with
        | .normal => executeEach rules n rest >>= thenStep rules N home step
        | flow => return flow := by
  simp only [executeEach, bind_assoc]
  congr 1
  funext flow
  cases flow with
  | continuing =>
    cases step with
    | none => rfl
    | some e => simp only [thenStep, pure_bind, bind_assoc]
  | _ => simp only [thenStep, pure_bind]

/-- A loop takes each `continue` of its body. -/
theorem Exec.iterate_thenStep (condition : Expr) (body : Stmt) (increment : Option Expr) :
    iterate rules n condition body increment >>= thenStep rules N home step =
      iterate rules n condition body increment := by
  funext m
  simp only [Bind.bind, EStateM.bind]
  cases hend : iterate rules n condition body increment m with
  | error e m₁ => rfl
  | ok flow m₁ =>
    rcases flow_of_iterate hend with rfl | ⟨value, rfl⟩
    · rfl
    · rfl

theorem Exec.inFrame_bind_pure {α β : Type} (f : FrameId) (x : Exec α) (b : β) :
    (inFrame f x >>= fun _ => Pure.pure b) = inFrame f (x >>= fun _ => Pure.pure b) := by
  funext m
  simp only [Bind.bind, EStateM.bind, inFrame_eq]
  cases x { m with current := f } <;> rfl

/-- Running in the current frame is running. -/
theorem Exec.inFrame_current {α : Type} {x : Exec α} (hx : Restores x) (m : Machine) :
    inFrame m.current x m = x m := by
  have hcurrent := (hx m).current
  rw [inFrame_eq]
  change End.behind _ (x m) = x m
  cases hend : x m with
  | ok a m₁ =>
    rw [hend] at hcurrent
    change EStateM.Result.ok a { m₁ with current := m.current } = _
    rw [← hcurrent]
    rfl
  | error e m₁ =>
    rw [hend] at hcurrent
    change EStateM.Result.error e { m₁ with current := m.current } = _
    rw [← hcurrent]
    rfl

/-- What the second loop does at the end of its body. -/
def Exec.stepLast (rules : Rules) (n : Nat) (increment : Option Expr) (flow : Flow) : Exec Flow :=
  match flow with
  | .normal =>
    match increment with
    | some e => do
      let _ ← evaluate rules n e
      return .normal
    | none => return .normal
  | flow => return flow

/-- A turn of a loop, whether the increment belongs to the loop or to its body. -/
theorem Exec.turn_eq (condition : Expr) (body : Stmt) (increment : Option Expr) (m : Machine) :
    (execute rules n body >>= fun flow =>
      match flow with
      | .normal => nextTurn rules n condition body increment
      | .breaking => Pure.pure Flow.normal
      | .continuing => nextTurn rules n condition body increment
      | .returning value => Pure.pure (.returning value)) m =
    (((execute rules n body >>= thenStep rules n m.current increment) >>=
        stepLast rules n increment) >>= fun flow =>
      match flow with
      | .normal => iterate rules n condition body increment
      | .breaking => Pure.pure Flow.normal
      | .continuing => iterate rules n condition body increment
      | .returning value => Pure.pure (.returning value)) m := by
  have hrestored := (restoresAt rules n).execute body m
  cases hbody : execute rules n body m with
  | error e m₁ => simp only [bind_of_error hbody, bind_assoc]
  | ok flow m₁ =>
    rw [hbody] at hrestored
    have hcurrent : m₁.current = m.current := hrestored.current
    simp only [bind_of_ok hbody, bind_assoc]
    cases flow with
    -- The increment runs in the body's frame here and in the loop's own there, which are the same
    -- frame, since statements give theirs back.
    | continuing =>
      cases increment with
      | none => rfl
      | some e =>
        have hstep := inFrame_current ((restoresAt rules n).evaluate e) m₁
        simp only [thenStep, bind_assoc, pure_bind, stepLast, ← hcurrent]
        change (evaluate rules n e >>= fun _ => _) m₁ = (inFrame m₁.current _ >>= fun _ => _) m₁
        simp only [Bind.bind, EStateM.bind, hstep]
    -- It runs behind the body on both sides.
    | normal =>
      cases increment with
      | none => rfl
      | some e =>
        simp only [thenStep, pure_bind, stepLast, bind_assoc]
        rfl
    -- The loop is left, without the increment.
    | _ => rfl

/-- A block of one statement, with enough of the bound. -/
theorem Exec.executeEach_singleton (rules : Rules) (j : Nat) (s : Stmt) :
    executeEach rules (j + 1) [s] = execute rules j s := by
  cases j with
  | zero =>
    funext m
    rfl
  | succ j =>
    rw [executeEach]
    refine Eq.trans ?_ (bind_pure _)
    congr 1
    funext flow
    cases flow with
    | normal => simp only [executeEach]
    | _ => rfl

end Lox
