import Lox.Proofs.Execution.Course
import Lox.Proofs.Execution.Methods

/-!
# One event after the other

Each part of a task begins where the part before it has ended, or in the same machine
with one more call under way.  So the machines of a trace come one out of the other:
every event extends all that are in front of it.
-/

namespace Lox

open Exec

variable {V : Visit → Prop} {rules : Rules} {m m' m'' : Machine} {x y : Moment} {s : Event}
  {events events' : List Event}

/-! ### Parts -/

/-- Each of the parts begins where the one before it has ended, and the first one here. -/
def RunsFrom (rules : Rules) : Machine → List Moment → Prop
  | _, [] => True
  | m, y :: rest => Extends m y.machine ∧ RunsFrom rules (y.final rules) rest

namespace RunsFrom

theorem single (h : Extends m x.machine) : RunsFrom rules m [x] := ⟨h, trivial⟩

/-- What is behind a part starts in the machine that the part has left behind. -/
theorem behind {α : Type} {p : Exec α} {rest : α → Machine → List Moment}
    (hx : Extends m' x.machine) (hfinal : x.final rules = endOf (p m))
    (hrest : ∀ a m', p m = .ok a m' → RunsFrom rules m' (rest a m')) :
    RunsFrom rules m' (x :: Exec.behind p rest m) := by
  refine ⟨hx, ?_⟩
  rw [hfinal]
  unfold Exec.behind
  cases hrun : p m with
  | ok a m₁ => exact hrest a m₁ hrun
  | error e m₁ => trivial

end RunsFrom

/-- The parts of a call: the callee, the arguments, and the call itself. -/
theorem Moment.runsFrom_call {fuel : Nat} {callee : Expr} {paren : Token} {arguments : List Expr} :
    RunsFrom rules m (parts rules ⟨fuel + 1, .evaluate (.call callee paren arguments), m⟩) := by
  refine .behind (.refl m) rfl fun value m₁ _ => ?_
  refine .behind (.refl m₁) rfl fun values m₂ _ => ?_
  unfold behind
  cases hcheck : checkCall rules value values.length paren.line m₂ with
  | ok a m₃ =>
    obtain ⟨rfl, -⟩ := of_checkCall_ok hcheck
    exact .single (.of_eq rfl rfl)
  | error e m₃ => trivial

/-- The parts of a loop: the test, the body, the increment, and the next turn. -/
theorem Moment.runsFrom_iterate {fuel : Nat} {condition : Expr} {body : Stmt}
    {increment : Option Expr} :
    RunsFrom rules m (parts rules ⟨fuel + 1, .iterate condition body increment, m⟩) := by
  have hturn : ∀ m₂, RunsFrom rules m₂ (partsOfTurn rules fuel condition body m₂ increment) := by
    intro m₂
    cases increment with
    | none => exact .single (.refl m₂)
    | some step => exact .behind (.refl m₂) rfl fun _ m₃ _ => .single (.refl m₃)
  refine .behind (.refl m) rfl fun value m₁ _ => ?_
  split
  · refine .behind (.refl m₁) rfl fun flow m₂ _ => ?_
    cases flow with
    | normal => exact hturn m₂
    | continuing => exact hturn m₂
    | _ => trivial
  · trivial

theorem Moment.runsFrom_evaluate {fuel : Nat} (e : Expr) :
    RunsFrom rules m (parts rules ⟨fuel + 1, .evaluate e, m⟩) := by
  cases e with
  | literal | read | this | super => trivial
  | group | unary | assign | get => exact .single (.refl m)
  | binary => exact .behind (.refl m) rfl fun _ m₁ _ => .single (.refl m₁)
  | logical =>
    refine .behind (.refl m) rfl fun value m₁ _ => ?_
    split
    · trivial
    · exact .single (.refl m₁)
  | call => exact runsFrom_call
  | set =>
    refine .behind (.refl m) rfl fun value m₁ _ => ?_
    cases value with
    | object owner => exact .single (.refl m₁)
    | _ => trivial

/-- The parts of a statement, apart from those of a block. -/
theorem Moment.runsFrom_execute {fuel : Nat} {s : Stmt} (hblock : ∀ body, s ≠ .block body) :
    RunsFrom rules m (parts rules ⟨fuel + 1, .execute s, m⟩) := by
  cases s with
  | function | breaking | continuing | «class» => trivial
  | expression | loop => exact .single (.refl m)
  | var name value =>
    cases value with
    | none => trivial
    | some value => exact .single (.refl m)
  | returning keyword value =>
    cases value with
    | none => trivial
    | some value => exact .single (.refl m)
  | block body => exact absurd rfl (hblock body)
  | conditional condition thenBranch elseBranch =>
    refine .behind (.refl m) rfl fun value m₁ _ => ?_
    split
    · exact .single (.refl m₁)
    · cases elseBranch with
      | none => trivial
      | some branch => exact .single (.refl m₁)

/-- The only part of a task needs no more than that it extends the machine of the task. -/
theorem Moment.Ok.runsFrom_single (h : x.Ok V) (hy : x.parts rules = [y]) :
    RunsFrom rules x.machine (x.parts rules) := by
  have hleads : Leads rules x y := mem_parts_iff.mp (hy ▸ List.mem_singleton_self y)
  rw [hy]
  exact .single (h.led hleads).extends

/-- The parts of a task are run one after the other. -/
theorem Moment.Ok.runsFrom (h : x.Ok V) : RunsFrom rules x.machine (x.parts rules) := by
  -- Each part starts in a machine that extends the one in which the part before it ended.
  obtain ⟨fuel, task, m⟩ := x
  cases fuel with
  | zero => trivial
  | succ fuel =>
    cases task with
    | evaluate e => exact runsFrom_evaluate e
    | evaluateEach es =>
      cases es with
      | nil => trivial
      | cons => exact .behind (.refl m) rfl fun _ m₁ _ => .single (.refl m₁)
    | call callee arguments line =>
      cases callee with
      | function => exact .single (.refl m)
      | «class» c =>
        -- Making the instance and binding its initializer only extend the machine.
        cases hmethod : c.initializer? with
        | none =>
          rw [parts_of_no_initializer hmethod]
          trivial
        | some method =>
          exact h.runsFrom_single (parts_of_initializer rfl hmethod (bind_eq _ _ _) arguments line)
      | _ => trivial
    -- The frame of the body is made, and the arguments are bound in it.
    | callFunction f arguments line =>
      obtain ⟨frame, m', hbind⟩ := bindArguments_ok f arguments m
      exact h.runsFrom_single (behind_of_ok hbind _)
    | execute s =>
      -- The frame of a block is made in the same way.
      by_cases hblock : ∃ body, s = .block body
      · obtain ⟨body, rfl⟩ := hblock
        exact h.runsFrom_single rfl
      · exact runsFrom_execute fun body hbody => hblock ⟨body, hbody⟩
    | executeEach ss =>
      cases ss with
      | nil => trivial
      | cons =>
        -- The rest runs only behind a normal end.
        refine .behind (.refl m) rfl fun flow m₁ _ => ?_
        cases flow with
        | normal => exact .single (.refl m₁)
        | _ => trivial
    | iterate => exact runsFrom_iterate

/-! ### Events -/

/-- From one machine to another by events that come one out of the other. -/
inductive Along : Machine → List Event → Machine → Prop where
  | nil {m m' : Machine} : Extends m m' → Along m [] m'
  | cons {m m' : Machine} {s : Event} {events : List Event} : Extends m s.machine →
      Along s.machine events m' → Along m (s :: events) m'

namespace Along

theorem after (h : Along m' events m'') (hm : Extends m m') : Along m events m'' := by
  cases h with
  | nil h => exact .nil (hm.trans h)
  | cons h hrest => exact .cons (hm.trans h) hrest

theorem append (h : Along m events m') (h' : Along m' events' m'') :
    Along m (events ++ events') m'' := by
  induction h with
  | nil h => exact h'.after h
  | cons h _ ih => exact .cons h (ih h')

/-- Every event extends the machine in front. -/
theorem extends_mem (h : Along m events m') : ∀ s ∈ events, Extends m s.machine := by
  induction h with
  | nil => exact List.forall_mem_nil _
  | cons h _ ih =>
    intro s hs
    rcases List.mem_cons.mp hs with rfl | hs
    · exact h
    · exact h.trans (ih s hs)

/-- Every event extends those in front of it. -/
theorem pairwise (h : Along m events m') :
    events.Pairwise fun s s' => Extends s.machine s'.machine := by
  induction h with
  | nil => exact .nil
  | cons _ hrest ih => exact .cons hrest.extends_mem ih

theorem parts {ys : List Moment} (h : RunsFrom rules m ys)
    (hys : ∀ y ∈ ys, Along y.machine (y.trace rules) (y.final rules))
    (hends : ∀ y ∈ ys, Extends (y.final rules) m') (hm : Extends m m') :
    Along m (ys.flatMap (Moment.trace rules)) m' := by
  induction ys generalizing m with
  | nil => exact .nil hm
  | cons y ys ih =>
    rw [List.flatMap_cons]
    refine ((hys y List.mem_cons_self).after h.1).append ?_
    exact ih h.2 (fun z hz => hys z (List.mem_cons_of_mem _ hz))
      (fun z hz => hends z (List.mem_cons_of_mem _ hz)) (hends y List.mem_cons_self)

end Along

/-- The events of a task come one out of the other. -/
theorem Moment.Ok.along (h : x.Ok V) : Along x.machine (x.trace rules) (x.final rules) := by
  induction hfuel : x.fuel using Nat.strongRecOn generalizing x with
  | ind fuel ih =>
    subst hfuel
    have hparts : Along x.machine ((x.parts rules).flatMap (trace rules)) (x.final rules) := by
      refine .parts h.runsFrom (fun y hy => ?_) (fun y hy => ?_) h.extends_final
      · have hleads := mem_parts_iff.mp hy
        exact ih y.fuel hleads.fuel_lt (h.leads hleads) rfl
      · exact h.extends_behind (mem_parts_iff.mp hy)
    rw [trace_eq]
    have hends : Along (x.final rules) [.ends rules x] (x.final rules) :=
      .cons (.refl _) (.nil (.refl _))
    exact .cons (.refl _) (hparts.append hends)

end Lox
