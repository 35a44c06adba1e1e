import Lox.Proofs.Execution.Calls

/-!
# The order of a run

The parts of a task are run one after the other: of two different parts, one begins in a
machine that has grown out of the one in which the other has ended.  So two moments of a
run are the same, or one of them is on the way to the other, or one has come to its end
before the other begins.
-/

namespace Lox

open Resolution Exec

variable {V : Visit → Prop} {rules : Rules} {start x y y₁ y₂ : Moment}

theorem Exec.extends_of_ok {α : Type} {p : Exec α} {m m' : Machine} {a : α}
    (h : p m = .ok a m') : Extends (endOf (p m)) m' := by
  rw [h]
  exact .refl _

/-- One of two tasks ends before the other begins. -/
def InTurns (rules : Rules) (x y : Moment) : Prop :=
  Extends (x.final rules) y.machine ∨ Extends (y.final rules) x.machine

namespace Leads

/-! ### The parts of one task -/

/-- The callee and the arguments of a call are evaluated before it is made. -/
theorem inTurns_call {fuel : Nat} {callee : Expr} {paren : Token} {arguments : List Expr}
    {m : Machine} (hok : Moment.Ok V ⟨fuel + 1, .evaluate (.call callee paren arguments), m⟩)
    (h₁ : Leads rules ⟨fuel + 1, .evaluate (.call callee paren arguments), m⟩ y₁)
    (h₂ : Leads rules ⟨fuel + 1, .evaluate (.call callee paren arguments), m⟩ y₂) :
    y₁ = y₂ ∨ InTurns rules y₁ y₂ := by
  -- Between the arguments and the call itself only the counter changes.
  have hcalled {value values m₁ m₂ m₃} (hcallee : Exec.evaluate rules fuel callee m = .ok value m₁)
      (hvalues : Exec.evaluateEach rules fuel arguments m₁ = .ok values m₂)
      (hcheck : checkCall rules value values.length paren.line m₂ = .ok () m₃) :
      Extends m₁ m₂ ∧ Extends m₂ { m₃ with depth := m₃.depth + 1 } := by
    obtain ⟨rfl, -, -⟩ := of_checkCall_ok hcheck
    exact ⟨(hok.extends_part (.arguments hcallee)).trans (extends_of_ok hvalues), .of_eq rfl rfl⟩
  -- The nine pairs of parts; a part that occurs twice has the same machine, the runs being
  -- deterministic.
  cases h₁ with
  | callee =>
    cases h₂ with
    | callee => exact .inl rfl
    | arguments hcallee => exact .inr (.inl (extends_of_ok hcallee))
    | call hcallee hvalues hcheck =>
      obtain ⟨h, h'⟩ := hcalled hcallee hvalues hcheck
      exact .inr (.inl ((extends_of_ok hcallee).trans (h.trans h')))
  | arguments hcallee =>
    cases h₂ with
    | callee => exact .inr (.inr (extends_of_ok hcallee))
    | arguments hcallee' =>
      cases hcallee.symm.trans hcallee'
      exact .inl rfl
    | call hcallee' hvalues hcheck =>
      cases hcallee.symm.trans hcallee'
      exact .inr (.inl ((extends_of_ok hvalues).trans (hcalled hcallee hvalues hcheck).2))
  | call hcallee hvalues hcheck =>
    obtain ⟨h, h'⟩ := hcalled hcallee hvalues hcheck
    cases h₂ with
    | callee => exact .inr (.inr ((extends_of_ok hcallee).trans (h.trans h')))
    | arguments hcallee' =>
      cases hcallee.symm.trans hcallee'
      exact .inr (.inr ((extends_of_ok hvalues).trans h'))
    | call hcallee' hvalues' hcheck' =>
      cases hcallee.symm.trans hcallee'
      cases hvalues.symm.trans hvalues'
      cases hcheck.symm.trans hcheck'
      exact .inl rfl

/-- A loop leads to its test, its body, its increment and its next turn in this order. -/
theorem inTurns_iterate {fuel : Nat} {condition : Expr} {body : Stmt} {increment : Option Expr}
    {m : Machine} (hok : Moment.Ok V ⟨fuel + 1, .iterate condition body increment, m⟩)
    (h₁ : Leads rules ⟨fuel + 1, .iterate condition body increment, m⟩ y₁)
    (h₂ : Leads rules ⟨fuel + 1, .iterate condition body increment, m⟩ y₂) :
    y₁ = y₂ ∨ InTurns rules y₁ y₂ := by
  -- A whole turn of the body extends the machine, and so does the increment.
  have hturn {value flow m₁ m₂} (htest : Exec.evaluate rules fuel condition m = .ok value m₁)
      (htruthy : value.isTruthy = true) (hbody : Exec.execute rules fuel body m₁ = .ok flow m₂) :
      Extends m₁ m₂ :=
    (hok.extends_part (.turn htest htruthy)).trans (extends_of_ok hbody)
  have hstep' {value flow result step m₁ m₂ m₃} (hincrement : increment = some step)
      (htest : Exec.evaluate rules fuel condition m = .ok value m₁)
      (htruthy : value.isTruthy = true) (hbody : Exec.execute rules fuel body m₁ = .ok flow m₂)
      (hflow : flow = .normal ∨ flow = .continuing)
      (hstep : Exec.evaluate rules fuel step m₂ = .ok result m₃) : Extends m₂ m₃ := by
    subst hincrement
    exact (hok.extends_part (.increment htest htruthy hbody hflow)).trans (extends_of_ok hstep)
  -- The parts of a loop come in the order test, body, increment, next turn.
  cases h₁ with
  | test =>
    cases h₂ with
    | test => exact .inl rfl
    | turn htest _ => exact .inr (.inl (extends_of_ok htest))
    | increment htest htruthy hbody _ | again htest htruthy hbody _ =>
      exact .inr (.inl ((extends_of_ok htest).trans (hturn htest htruthy hbody)))
    | againAfter htest htruthy hbody hflow hstep =>
      exact .inr (.inl ((extends_of_ok htest).trans
        ((hturn htest htruthy hbody).trans (hstep' rfl htest htruthy hbody hflow hstep))))
  | turn htest htruthy =>
    cases h₂ with
    | test => exact .inr (.inr (extends_of_ok htest))
    | turn htest' _ =>
      -- Both parts stand behind the same test, so it has yielded the same machine.
      cases htest.symm.trans htest'
      exact .inl rfl
    | increment htest' _ hbody _ | again htest' _ hbody _ =>
      cases htest.symm.trans htest'
      exact .inr (.inl (extends_of_ok hbody))
    | againAfter htest' _ hbody hflow hstep =>
      cases htest.symm.trans htest'
      exact .inr (.inl ((extends_of_ok hbody).trans (hstep' rfl htest htruthy hbody hflow hstep)))
  | increment htest htruthy hbody hflow =>
    cases h₂ with
    | test => exact .inr (.inr ((extends_of_ok htest).trans (hturn htest htruthy hbody)))
    | turn htest' _ =>
      cases htest.symm.trans htest'
      exact .inr (.inr (extends_of_ok hbody))
    | increment htest' _ hbody' _ =>
      -- Both stand behind the same body as well.
      cases htest.symm.trans htest'
      cases hbody.symm.trans hbody'
      exact .inl rfl
    | againAfter htest' _ hbody' _ hstep =>
      cases htest.symm.trans htest'
      cases hbody.symm.trans hbody'
      exact .inr (.inl (extends_of_ok hstep))
  -- Without an increment the next turn is the last part.
  | again htest htruthy hbody hflow =>
    cases h₂ with
    | test => exact .inr (.inr ((extends_of_ok htest).trans (hturn htest htruthy hbody)))
    | turn htest' _ =>
      cases htest.symm.trans htest'
      exact .inr (.inr (extends_of_ok hbody))
    | again htest' _ hbody' _ =>
      cases htest.symm.trans htest'
      cases hbody.symm.trans hbody'
      exact .inl rfl
  | againAfter htest htruthy hbody hflow hstep =>
    have hextends := hstep' rfl htest htruthy hbody hflow hstep
    cases h₂ with
    | test =>
      exact .inr (.inr ((extends_of_ok htest).trans ((hturn htest htruthy hbody).trans hextends)))
    | turn htest' _ =>
      cases htest.symm.trans htest'
      exact .inr (.inr ((extends_of_ok hbody).trans hextends))
    | increment htest' _ hbody' _ =>
      cases htest.symm.trans htest'
      cases hbody.symm.trans hbody'
      exact .inr (.inr (extends_of_ok hstep))
    | againAfter htest' _ hbody' _ hstep'' =>
      cases htest.symm.trans htest'
      cases hbody.symm.trans hbody'
      cases hstep.symm.trans hstep''
      exact .inl rfl

/-- Of two different parts of a task, one ends before the other begins. -/
theorem inTurns (hok : x.Ok V) (h₁ : Leads rules x y₁) (h₂ : Leads rules x y₂) :
    y₁ = y₂ ∨ InTurns rules y₁ y₂ := by
  cases h₁ with
  -- These have one part only.
  | group | unary | assign | get | function | expression | var | loop | returning =>
    cases h₂
    exact .inl rfl
  | initializer hinstance hmethod hbind =>
    cases h₂ with
    -- What is in front of the part is the same computation in both, with the same result.
    | initializer hinstance' hmethod' hbind' =>
      cases hinstance.symm.trans hinstance'
      cases hmethod.symm.trans hmethod'
      cases hbind.symm.trans hbind'
      exact .inl rfl
  | body hbind =>
    cases h₂ with
    | body hbind' =>
      cases hbind.symm.trans hbind'
      exact .inl rfl
  | block hframe =>
    cases h₂ with
    | block hframe' =>
      cases hframe.symm.trans hframe'
      exact .inl rfl
  | binaryLeft | logicalLeft | setObject | firstExpr | firstStmt | condition =>
    -- the first part: another one begins where it has ended
    cases h₂ <;> first | exact .inl rfl | exact .inr (.inl (extends_of_ok ‹_ = _›))
  | binaryRight hfirst | setValue hfirst | nextExprs hfirst | nextStmts hfirst =>
    cases h₂ <;> first | exact .inr (.inr (extends_of_ok hfirst)) | skip
    cases hfirst.symm.trans ‹_ = _›
    exact .inl rfl
  | logicalRight hleft _ =>
    cases h₂ with
    | logicalLeft => exact .inr (.inr (extends_of_ok hleft))
    | logicalRight hleft' _ =>
      cases hleft.symm.trans hleft'
      exact .inl rfl
  -- Only one of the branches is a part, whichever the condition selects.
  | thenBranch htest htruthy =>
    cases h₂ with
    | condition => exact .inr (.inr (extends_of_ok htest))
    | thenBranch htest' _ =>
      cases htest.symm.trans htest'
      exact .inl rfl
    | elseBranch htest' hfalsy =>
      cases htest.symm.trans htest'
      cases htruthy.symm.trans hfalsy
  | elseBranch htest hfalsy =>
    cases h₂ with
    | condition => exact .inr (.inr (extends_of_ok htest))
    | thenBranch htest' htruthy =>
      cases htest.symm.trans htest'
      cases htruthy.symm.trans hfalsy
    | elseBranch htest' _ =>
      cases htest.symm.trans htest'
      exact .inl rfl
  -- Calls and loops have three parts and more, and are treated by themselves.
  | callee => exact inTurns_call hok .callee h₂
  | arguments hcallee => exact inTurns_call hok (.arguments hcallee) h₂
  | call hcallee hvalues hcheck => exact inTurns_call hok (.call hcallee hvalues hcheck) h₂
  | test => exact inTurns_iterate hok .test h₂
  | turn htest htruthy => exact inTurns_iterate hok (.turn htest htruthy) h₂
  | increment htest htruthy hbody hflow =>
    exact inTurns_iterate hok (.increment htest htruthy hbody hflow) h₂
  | again htest htruthy hbody hflow =>
    exact inTurns_iterate hok (.again htest htruthy hbody hflow) h₂
  | againAfter htest htruthy hbody hflow hstep =>
    exact inTurns_iterate hok (.againAfter htest htruthy hbody hflow hstep) h₂

end Leads

/-! ### The moments of one run -/

theorem Passes.trans (h : Passes rules start x) (h' : Passes rules x y) : Passes rules start y := by
  induction h' with
  | start => exact h
  | step _ hleads ih => exact ih.step hleads

/-- A run that is under way to a moment has reached it, or goes on to a first part. -/
theorem Passes.first (h : Passes rules start x) :
    x = start ∨ ∃ y, Leads rules start y ∧ Passes rules y x := by
  induction h with
  | start => exact .inl rfl
  | step _ hleads ih =>
    rcases ih with rfl | ⟨y, hfirst, hpasses⟩
    · exact .inr ⟨_, hleads, .start⟩
    · exact .inr ⟨y, hfirst, hpasses.step hleads⟩

/-- A moment on the way begins in a machine that has grown out of the first one. -/
theorem Moment.Ok.extends_passes (hok : start.Ok V) (h : Passes rules start x) :
    Extends start.machine x.machine := by
  induction h with
  | start => exact .refl _
  | step hpasses hleads ih => exact ih.trans ((hok.passes hpasses).led hleads).extends

/-- What is done behind a moment on the way extends the machine that it ends in. -/
theorem Moment.Ok.extends_around (hok : start.Ok V) (h : Passes rules start x) :
    Extends (x.final rules) (start.final rules) := by
  induction h with
  | start => exact .refl _
  | step hpasses hleads ih => exact ((hok.passes hpasses).extends_behind hleads).trans ih

/-- Of two moments of a run, one leads to the other or ends before the other begins. -/
theorem Moment.Ok.in_order (hok : start.Ok V) (hx : Passes rules start x)
    (hy : Passes rules start y) :
    Passes rules x y ∨ Passes rules y x ∨ InTurns rules x y := by
  induction hfuel : start.fuel using Nat.strongRecOn generalizing start with
  | ind fuel ih =>
    rcases hx.first with rfl | ⟨x', hx', hxs⟩
    · exact .inl hy
    rcases hy.first with rfl | ⟨y', hy', hys⟩
    · exact .inr (.inl hx)
    have hokx := hok.leads hx'
    have hoky := hok.leads hy'
    rcases hx'.inTurns hok hy' with rfl | hbefore | hbehind
    · exact ih x'.fuel (hfuel ▸ hx'.fuel_lt) hokx hxs hys rfl
    · exact .inr (.inr (.inl
        ((hokx.extends_around hxs).trans (hbefore.trans (hoky.extends_passes hys)))))
    · exact .inr (.inr (.inr
        ((hoky.extends_around hys).trans (hbehind.trans (hokx.extends_passes hxs)))))

end Lox
