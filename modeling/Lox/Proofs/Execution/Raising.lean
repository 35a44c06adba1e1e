import Lox.Proofs.Execution.Calls

/-!
# Where an error is raised

An error that ends a run is raised by one task: it stops this task, and all code that the
task has led to before ended well.  The task has a token at which it reports errors, and
the line of the error is the line of this token.
-/

namespace Lox

open Exec

/-- The task is the call of a native function, which has no code of its own. -/
def Task.IsNative : Task → Prop
  | .call (.native _) _ _ => True
  | _ => False

/--
The task is stopped by the error, and no code that it leads to is.  What goes wrong in a
native function is raised by the expression that calls it.
-/
structure Moment.RaisesAt (rules : Rules) (x : Moment) (t : Token) (e : RuntimeError) : Prop where
  fails : x.Fails rules e
  innermost : ∀ y, Leads rules x y → y.Fails rules e → y.task.IsNative
  token : x.task.token? = some t

variable {rules : Rules} {x y : Moment} {t : Token} {e : RuntimeError}

theorem Moment.Overflows.token? {line : Nat} (h : x.Overflows rules line) :
    ∃ t, x.task.token? = some t ∧ line = t.line := by
  obtain ⟨callee, values, paren, m, hattempts, -, -, hline⟩ := h
  cases hattempts with
  | mk _ _ => exact ⟨paren, rfl, hline⟩

/-- A native function is called by a call expression, and reports its errors at the parenthesis. -/
theorem Leads.native (hleads : Leads rules x y) (hnative : y.task.IsNative)
    (hy : y.Fails rules e) :
    ∃ t, x.task.token? = some t ∧ (e.cause.Harmless → e.line = t.line) := by
  cases hleads with
  | @call fuel _ _ paren _ value _ _ _ _ _ _ _ =>
    cases value with
    | native native =>
      cases fuel with
      | zero => exact FailsOnly.outOfFuel.absurd hy
      | succ fuel =>
        have he := FailsOnly.callNative rules native _ (RuntimeError.Plain.allAt paren.line) _ _ hy
        exact ⟨paren, rfl, he.line⟩
    | _ => cases hnative
  | _ => cases hnative

/-- A task that fails in a step of its own has a token for this, unless it is a callee. -/
theorem Moment.Faults.token? (h : x.Faults rules e) (hharmless : e.cause.Harmless)
    (hcallee : ¬ x.task.IsCallee) : ∃ t, x.task.token? = some t := by
  cases h with
  | native | uncallable => exact absurd trivial hcallee
  | result hresult =>
    exact absurd hharmless
      (FailsOnly.callResult (Q := fun e => ¬ e.cause.Harmless) _ _ (fun _ h => h) _ _ hresult)
  | @«class» _ _ _ superclass _ _ hdeclare =>
    cases superclass with
    | none => exact (FailsOnly.declareClass rules _ (fun _ h => by cases h) _).absurd hdeclare
    | some place => exact ⟨_, rfl⟩
  | _ => exact ⟨_, rfl⟩

/-- An error has the line of the token at which it is raised. -/
theorem Moment.RaisesAt.line (h : x.RaisesAt rules t e) (hharmless : e.cause.Harmless) :
    e.line = t.line := by
  rcases Moment.failsWithin h.fails with ⟨y, hleads, hy⟩ | hfaults
  · obtain ⟨t', ht', hline⟩ := hleads.native (h.innermost y hleads hy) hy
    cases h.token.symm.trans ht'
    exact hline hharmless
  · rcases hfaults.overflows_or_plain with ⟨hoverflows, -⟩ | ⟨-, hline⟩
    · obtain ⟨t', ht', hline⟩ := hoverflows.token?
      cases h.token.symm.trans ht'
      exact hline
    · exact hline t h.token hharmless

/-- What is called has passed the checks, so it can be called. -/
theorem Leads.callable {fuel : Nat} {callee : Value} {arguments : List Value} {line : Nat}
    {m : Machine} (h : Leads rules x ⟨fuel, .call callee arguments line, m⟩) :
    callee.arity? ≠ none := by
  cases h with
  | call _ _ hcheck =>
    rw [(of_checkCall_ok hcheck).2.1]
    simp

/-- A callee with code of its own that fails does so in the call of a function. -/
theorem Leads.fails_in_function (h : Leads rules x y) (hcallee : y.task.IsCallee)
    (hnative : ¬ y.task.IsNative) (hy : y.Fails rules e) :
    ∃ z, Leads rules y z ∧ ¬ z.task.IsCallee ∧ z.Fails rules e := by
  rcases Moment.failsWithin hy with ⟨z, hleads, hz⟩ | hfaults
  · refine ⟨z, hleads, ?_, hz⟩
    cases hleads with
    | function | initializer => exact id
    | _ => cases hcallee
  · cases hfaults with
    | native => exact absurd trivial hnative
    | uncallable harity => exact absurd harity h.callable
    | _ => cases hcallee

/-- Every error that stops a task is raised at a token of some code on the way. -/
theorem Moment.Fails.exists_raisesAt (h : x.Fails rules e) (hharmless : e.cause.Harmless)
    (hcallee : ¬ x.task.IsCallee) : ∃ y t, Passes rules x y ∧ y.RaisesAt rules t e := by
  induction hfuel : x.fuel using Nat.strongRecOn generalizing x with
  | ind fuel ih =>
    by_cases hparts : ∃ y, Leads rules x y ∧ y.Fails rules e ∧ ¬ y.task.IsNative
    · obtain ⟨y, hleads, hy, hnative⟩ := hparts
      have hlt : y.fuel < fuel := hfuel ▸ hleads.fuel_lt
      by_cases hcallee' : y.task.IsCallee
      · obtain ⟨z, hleads', hcallee'', hz⟩ := hleads.fails_in_function hcallee' hnative hy
        obtain ⟨w, t, hpasses, hw⟩ :=
          ih z.fuel (Nat.lt_trans hleads'.fuel_lt hlt) hz hcallee'' rfl
        exact ⟨w, t, (hpasses.after hleads').after hleads, hw⟩
      · obtain ⟨w, t, hpasses, hw⟩ := ih y.fuel hlt hy hcallee' rfl
        exact ⟨w, t, hpasses.after hleads, hw⟩
    · have hinnermost : ∀ y, Leads rules x y → y.Fails rules e → y.task.IsNative :=
        fun y hleads hy => Classical.not_not.mp fun hnative => hparts ⟨y, hleads, hy, hnative⟩
      have htoken : ∃ t, x.task.token? = some t := by
        rcases Moment.failsWithin h with ⟨y, hleads, hy⟩ | hfaults
        · obtain ⟨t, ht, -⟩ := hleads.native (hinnermost y hleads hy) hy
          exact ⟨t, ht⟩
        · exact hfaults.token? hharmless hcallee
      obtain ⟨t, ht⟩ := htoken
      exact ⟨x, t, .start, h, hinnermost, ht⟩

end Lox
