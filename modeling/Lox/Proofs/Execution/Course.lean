import Lox.Proofs.Execution.Order

/-!
# The course of a run

The parts of a task are listed here in the order of their execution, each with the
machine in which it begins.  So a run has a trace: every task begins, then comes the
trace of each of its parts, and then it ends.  What a task does at the end of a trace is
done behind all of its parts, which is why the trace of a task is in front of its end
wherever this end stands.
-/

namespace Lox

open Exec

/-- What follows where a computation succeeds, and nothing where it does not. -/
def Exec.behind {α : Type} (p : Exec α) (parts : α → Machine → List Moment) (m : Machine) :
    List Moment :=
  match p m with
  | .ok a m' => parts a m'
  | .error _ _ => []

namespace Moment

def partsOfExpr (rules : Rules) (fuel : Nat) (m : Machine) : Expr → List Moment
  | .literal _ | .read _ | .this _ | .super _ _ => []
  | .group inner => [⟨fuel, .evaluate inner, m⟩]
  | .unary _ operand => [⟨fuel, .evaluate operand, m⟩]
  | .binary left _ right =>
    ⟨fuel, .evaluate left, m⟩ ::
      behind (Exec.evaluate rules fuel left) (fun _ m' => [⟨fuel, .evaluate right, m'⟩]) m
  | .logical left operator right =>
    ⟨fuel, .evaluate left, m⟩ ::
      behind (Exec.evaluate rules fuel left)
        (fun value m' =>
          if Operator.decides operator value then [] else [⟨fuel, .evaluate right, m'⟩]) m
  | .assign _ value => [⟨fuel, .evaluate value, m⟩]
  | .call callee paren arguments =>
    ⟨fuel, .evaluate callee, m⟩ ::
      behind (Exec.evaluate rules fuel callee)
        (fun value m₁ => ⟨fuel, .evaluateEach arguments, m₁⟩ ::
          behind (Exec.evaluateEach rules fuel arguments)
            (fun values => behind (checkCall rules value values.length paren.line)
              fun _ m₃ =>
                [⟨fuel, .call value values paren.line, { m₃ with depth := m₃.depth + 1 }⟩]) m₁) m
  | .get object _ => [⟨fuel, .evaluate object, m⟩]
  | .set object _ value =>
    ⟨fuel, .evaluate object, m⟩ ::
      behind (Exec.evaluate rules fuel object)
        (fun
          | .object _, m' => [⟨fuel, .evaluate value, m'⟩]
          | _, _ => []) m

def partsOfStmt (rules : Rules) (fuel : Nat) (m : Machine) : Stmt → List Moment
  | .var _ none | .function _ | .returning _ none | .breaking _ | .continuing _ | .class _ _ _ => []
  | .expression value | .var _ (some value) | .returning _ (some value) =>
    [⟨fuel, .evaluate value, m⟩]
  | .block body =>
    behind newInnerFrame
      (fun frame m' => [⟨fuel, .executeEach body, { m' with current := frame }⟩]) m
  | .conditional condition thenBranch elseBranch =>
    ⟨fuel, .evaluate condition, m⟩ ::
      behind (Exec.evaluate rules fuel condition)
        (fun value m' =>
          if value.isTruthy then [⟨fuel, .execute thenBranch, m'⟩]
          else elseBranch.toList.map fun branch => ⟨fuel, .execute branch, m'⟩) m
  | .loop condition body increment => [⟨fuel, .iterate condition body increment, m⟩]

/-- The parts of what is behind the body of a loop. -/
def partsOfTurn (rules : Rules) (fuel : Nat) (condition : Expr) (body : Stmt) (m : Machine) :
    Option Expr → List Moment
  | none => [⟨fuel, .iterate condition body none, m⟩]
  | some step =>
    ⟨fuel, .evaluate step, m⟩ ::
      behind (Exec.evaluate rules fuel step)
        (fun _ m' => [⟨fuel, .iterate condition body (some step), m'⟩]) m

/-- The parts of a task, in the order of their execution. -/
def parts (rules : Rules) : Moment → List Moment
  | ⟨0, _, _⟩ => []
  | ⟨fuel + 1, task, m⟩ =>
    match task with
    | .evaluate e => partsOfExpr rules fuel m e
    | .evaluateEach [] => []
    | .evaluateEach (e :: rest) =>
      ⟨fuel, .evaluate e, m⟩ ::
        behind (Exec.evaluate rules fuel e) (fun _ m' => [⟨fuel, .evaluateEach rest, m'⟩]) m
    | .call (.function f) arguments line => [⟨fuel, .callFunction f arguments line, m⟩]
    | .call (.class c) arguments line =>
      behind (newInstance c)
        (fun owner m₁ =>
          match c.initializer? with
          | some method =>
            behind (Exec.bind method owner)
              (fun f m₂ => [⟨fuel, .callFunction f arguments line, m₂⟩]) m₁
          | none => []) m
    | .call _ _ _ => []
    | .callFunction f arguments _ =>
      behind (bindArguments f arguments)
        (fun frame m' => [⟨fuel, .executeEach f.declaration.body, { m' with current := frame }⟩]) m
    | .execute s => partsOfStmt rules fuel m s
    | .executeEach [] => []
    | .executeEach (s :: rest) =>
      ⟨fuel, .execute s, m⟩ ::
        behind (Exec.execute rules fuel s)
          (fun
            | .normal, m' => [⟨fuel, .executeEach rest, m'⟩]
            | _, _ => []) m
    | .iterate condition body increment =>
      ⟨fuel, .evaluate condition, m⟩ ::
        behind (Exec.evaluate rules fuel condition)
          (fun value m₁ =>
            if value.isTruthy then
              ⟨fuel, .execute body, m₁⟩ ::
                behind (Exec.execute rules fuel body)
                  (fun
                    | .normal, m₂ | .continuing, m₂ =>
                      partsOfTurn rules fuel condition body m₂ increment
                    | _, _ => []) m₁
            else []) m

end Moment

variable {rules : Rules} {x y : Moment}

theorem Exec.behind_of_ok {α : Type} {p : Exec α} {m m' : Machine} {a : α}
    (h : p m = .ok a m') (parts : α → Machine → List Moment) : behind p parts m = parts a m' := by
  rw [behind, h]

theorem Exec.behind_of_error {α : Type} {p : Exec α} {m m' : Machine} {e : Interrupt}
    (h : p m = .error e m') (parts : α → Machine → List Moment) : behind p parts m = [] := by
  rw [behind, h]

theorem Exec.mem_behind {α : Type} {p : Exec α} {m : Machine} {parts : α → Machine → List Moment} :
    y ∈ behind p parts m ↔ ∃ a m', p m = .ok a m' ∧ y ∈ parts a m' := by
  constructor
  · intro h
    unfold behind at h
    split at h
    · rename_i a m' hp
      exact ⟨a, m', hp, h⟩
    · cases h
  · rintro ⟨a, m', hp, h⟩
    rw [behind_of_ok hp]
    exact h

namespace Moment

variable {fuel : Nat} {m : Machine}

theorem parts_block (rules : Rules) (fuel : Nat) (body : List Stmt) (m : Machine) :
    parts rules ⟨fuel + 1, .execute (.block body), m⟩ =
      behind newInnerFrame
        (fun frame m' => [⟨fuel, .executeEach body, { m' with current := frame }⟩]) m :=
  rfl

/-- A class that is called makes an instance, and runs the initializer on it if there is one. -/
theorem parts_class (rules : Rules) (fuel : Nat) (c : Class) (arguments : List Value) (line : Nat)
    (m : Machine) :
    parts rules ⟨fuel + 1, .call (.class c) arguments line, m⟩ =
      behind (newInstance c)
        (fun owner m₁ =>
          match c.initializer? with
          | some method =>
            behind (Exec.bind method owner)
              (fun f m₂ => [⟨fuel, .callFunction f arguments line, m₂⟩]) m₁
          | none => []) m :=
  rfl

/-- Where there is an initializer, running it is the only part of making an instance. -/
theorem parts_of_initializer {c : Class} {method f : Function} {owner : Instance}
    {m₁ m₂ : Machine} (howner : newInstance c m = .ok owner m₁)
    (hmethod : c.initializer? = some method) (hbind : Exec.bind method owner m₁ = .ok f m₂)
    (arguments : List Value) (line : Nat) :
    parts rules ⟨fuel + 1, .call (.class c) arguments line, m⟩ =
      [⟨fuel, .callFunction f arguments line, m₂⟩] := by
  rw [parts_class, behind_of_ok howner, hmethod]
  exact behind_of_ok hbind _

/-- Where there is none, nothing is run. -/
theorem parts_of_no_initializer {c : Class} (hmethod : c.initializer? = none)
    (arguments : List Value) (line : Nat) :
    parts rules ⟨fuel + 1, .call (.class c) arguments line, m⟩ = [] := by
  rw [parts_class, hmethod]
  rfl

/-! ### Parts and what a task leads to -/

theorem leads_of_mem_partsOfExpr {e : Expr} (h : y ∈ partsOfExpr rules fuel m e) :
    Leads rules ⟨fuel + 1, .evaluate e, m⟩ y := by
  -- A part comes behind the parts before it, so membership names how those ended.
  cases e with
  | literal | read | this | super => cases h
  | group =>
    cases List.mem_singleton.mp h
    exact .group
  | unary =>
    cases List.mem_singleton.mp h
    exact .unary
  | assign =>
    cases List.mem_singleton.mp h
    exact .assign
  | get =>
    cases List.mem_singleton.mp h
    exact .get
  | binary left operator right =>
    rcases List.mem_cons.mp h with rfl | h
    · exact .binaryLeft
    obtain ⟨value, m', hleft, h⟩ := mem_behind.mp h
    cases List.mem_singleton.mp h
    exact .binaryRight hleft
  | logical left operator right =>
    rcases List.mem_cons.mp h with rfl | h
    · exact .logicalLeft
    obtain ⟨value, m', hleft, h⟩ := mem_behind.mp h
    -- A logical expression goes on to its right side unless the left side decides.
    split at h
    · cases h
    · cases List.mem_singleton.mp h
      exact .logicalRight hleft (Bool.eq_false_iff.mpr ‹_›)
  | call callee paren arguments =>
    rcases List.mem_cons.mp h with rfl | h
    · exact .callee
    obtain ⟨value, m₁, hcallee, h⟩ := mem_behind.mp h
    rcases List.mem_cons.mp h with rfl | h
    · exact .arguments hcallee
    obtain ⟨values, m₂, harguments, h⟩ := mem_behind.mp h
    obtain ⟨⟨⟩, m₃, hcheck, h⟩ := mem_behind.mp h
    cases List.mem_singleton.mp h
    exact .call hcallee harguments hcheck
  | set object name value =>
    rcases List.mem_cons.mp h with rfl | h
    · exact .setObject
    obtain ⟨found, m', hobject, h⟩ := mem_behind.mp h
    -- Only an instance has fields to set.
    cases found with
    | object owner =>
      cases List.mem_singleton.mp h
      exact .setValue hobject
    | _ => cases h

theorem leads_of_mem_partsOfStmt {s : Stmt} (h : y ∈ partsOfStmt rules fuel m s) :
    Leads rules ⟨fuel + 1, .execute s, m⟩ y := by
  cases s with
  -- A declaration has no parts: making a function or a class executes none of its code.
  | function | breaking | continuing | «class» => cases h
  | expression =>
    cases List.mem_singleton.mp h
    exact .expression
  | loop =>
    cases List.mem_singleton.mp h
    exact .loop
  | var name value =>
    cases value with
    | none => cases h
    | some value =>
      cases List.mem_singleton.mp h
      exact .var
  | returning keyword value =>
    cases value with
    | none => cases h
    | some value =>
      cases List.mem_singleton.mp h
      exact .returning
  | block body =>
    change y ∈ parts rules ⟨fuel + 1, .execute (.block body), m⟩ at h
    -- The body of a block runs in the frame that the block opens.
    rw [parts_block, mem_behind] at h
    obtain ⟨frame, m', hframe, h⟩ := h
    cases List.mem_singleton.mp h
    exact .block hframe
  | conditional condition thenBranch elseBranch =>
    rcases List.mem_cons.mp h with rfl | h
    · exact .condition
    obtain ⟨value, m', hcondition, h⟩ := mem_behind.mp h
    -- The branch depends on the truthiness of the condition's value.
    split at h
    · cases List.mem_singleton.mp h
      exact .thenBranch hcondition ‹_›
    · cases elseBranch with
      | none => cases h
      | some branch =>
        cases List.mem_singleton.mp h
        exact .elseBranch hcondition (Bool.eq_false_iff.mpr ‹_›)

theorem leads_of_mem_partsOfTurn {condition : Expr} {body : Stmt} {increment : Option Expr}
    {value : Value} {flow : Flow} {m₁ m₂ : Machine}
    (htest : Exec.evaluate rules fuel condition m = .ok value m₁) (htruthy : value.isTruthy = true)
    (hbody : Exec.execute rules fuel body m₁ = .ok flow m₂)
    (hflow : flow = .normal ∨ flow = .continuing)
    (h : y ∈ partsOfTurn rules fuel condition body m₂ increment) :
    Leads rules ⟨fuel + 1, .iterate condition body increment, m⟩ y := by
  cases increment with
  | none =>
    cases List.mem_singleton.mp h
    exact .again htest htruthy hbody hflow
  | some step =>
    rcases List.mem_cons.mp h with rfl | h
    · exact .increment htest htruthy hbody hflow
    obtain ⟨result, m₃, hstep, h⟩ := mem_behind.mp h
    cases List.mem_singleton.mp h
    exact .againAfter htest htruthy hbody hflow hstep

theorem leads_of_mem_parts (h : y ∈ x.parts rules) : Leads rules x y := by
  obtain ⟨fuel, task, m⟩ := x
  cases fuel with
  -- Without fuel a task has no parts.
  | zero => cases h
  | succ fuel =>
    cases task with
    | evaluate e => exact leads_of_mem_partsOfExpr h
    | execute s => exact leads_of_mem_partsOfStmt h
    | evaluateEach es =>
      cases es with
      | nil => cases h
      | cons e rest =>
        rcases List.mem_cons.mp h with rfl | h
        · exact .firstExpr
        obtain ⟨value, m', he, h⟩ := mem_behind.mp h
        cases List.mem_singleton.mp h
        exact .nextExprs he
    | executeEach ss =>
      -- The statements behind one run only if it ends normally.
      cases ss with
      | nil => cases h
      | cons s rest =>
        rcases List.mem_cons.mp h with rfl | h
        · exact .firstStmt
        obtain ⟨flow, m', hs, h⟩ := mem_behind.mp h
        cases flow with
        | normal =>
          cases List.mem_singleton.mp h
          exact .nextStmts hs
        | _ => cases h
    | call callee arguments line =>
      -- A function leads to its body through `callFunction`, a class to its initializer.
      cases callee with
      | function f =>
        cases List.mem_singleton.mp h
        exact .function
      | «class» c =>
        rw [parts_class, mem_behind] at h
        obtain ⟨owner, m₁, howner, h⟩ := h
        cases hmethod : c.initializer? with
        | none =>
          simp only [hmethod] at h
          cases h
        | some method =>
          simp only [hmethod, mem_behind, List.mem_singleton] at h
          obtain ⟨f, m₂, hbind, rfl⟩ := h
          exact .initializer howner hmethod hbind
      -- The rest of the values are no callees, the clock apart, which executes no code.
      | _ => cases h
    | callFunction f arguments line =>
      obtain ⟨frame, m', hbind, h⟩ := mem_behind.mp h
      cases List.mem_singleton.mp h
      exact .body hbind
    | iterate condition body increment =>
      rcases List.mem_cons.mp h with rfl | h
      · exact .test
      obtain ⟨value, m₁, htest, h⟩ := mem_behind.mp h
      -- A loop turns if the condition is truthy, and again after a normal end or a `continue`.
      split at h
      · rcases List.mem_cons.mp h with rfl | h
        · exact .turn htest ‹_›
        obtain ⟨flow, m₂, hbody, h⟩ := mem_behind.mp h
        cases flow with
        | normal => exact leads_of_mem_partsOfTurn htest ‹_› hbody (.inl rfl) h
        | continuing => exact leads_of_mem_partsOfTurn htest ‹_› hbody (.inr rfl) h
        | _ => cases h
      · cases h

theorem mem_partsOfTurn_iterate {condition : Expr} {body : Stmt} {increment : Option Expr}
    {value : Value} {flow : Flow} {m₁ m₂ : Machine}
    (htest : Exec.evaluate rules fuel condition m = .ok value m₁) (htruthy : value.isTruthy = true)
    (hbody : Exec.execute rules fuel body m₁ = .ok flow m₂)
    (hflow : flow = .normal ∨ flow = .continuing)
    (h : y ∈ partsOfTurn rules fuel condition body m₂ increment) :
    y ∈ parts rules ⟨fuel + 1, .iterate condition body increment, m⟩ := by
  refine List.mem_cons_of_mem _ (mem_behind.mpr ⟨value, m₁, htest, ?_⟩)
  rw [if_pos htruthy]
  refine List.mem_cons_of_mem _ (mem_behind.mpr ⟨flow, m₂, hbody, ?_⟩)
  rcases hflow with rfl | rfl <;> exact h

theorem mem_parts_of_leads (h : Leads rules x y) : y ∈ x.parts rules := by
  cases h with
  | binaryRight hfirst | nextExprs hfirst =>
    exact List.mem_cons_of_mem _ (mem_behind.mpr ⟨_, _, hfirst, List.mem_singleton_self _⟩)
  | logicalRight hfirst hdecides =>
    refine List.mem_cons_of_mem _ (mem_behind.mpr ⟨_, _, hfirst, ?_⟩)
    rw [hdecides]
    exact List.mem_singleton_self _
  | setValue hobject => exact List.mem_cons_of_mem _ (mem_behind.mpr ⟨_, _, hobject, .head _⟩)
  | nextStmts hs => exact List.mem_cons_of_mem _ (mem_behind.mpr ⟨_, _, hs, .head _⟩)
  | arguments hcallee => exact List.mem_cons_of_mem _ (mem_behind.mpr ⟨_, _, hcallee, .head _⟩)
  | call hcallee harguments hcheck =>
    refine List.mem_cons_of_mem _ (mem_behind.mpr ⟨_, _, hcallee, List.mem_cons_of_mem _ ?_⟩)
    exact mem_behind.mpr ⟨_, _, harguments, mem_behind.mpr ⟨_, _, hcheck, .head _⟩⟩
  | initializer howner hmethod hbind =>
    simp only [parts, behind_of_ok howner, hmethod, behind_of_ok hbind]
    exact .head _
  | body hbind | block hbind =>
    simp only [parts, partsOfStmt, behind_of_ok hbind]
    exact .head _
  | thenBranch hcondition htruthy | elseBranch hcondition htruthy =>
    refine List.mem_cons_of_mem _ (mem_behind.mpr ⟨_, _, hcondition, ?_⟩)
    rw [htruthy]
    exact .head _
  | turn htest htruthy =>
    refine List.mem_cons_of_mem _ (mem_behind.mpr ⟨_, _, htest, ?_⟩)
    rw [htruthy]
    exact .head _
  | increment htest htruthy hbody hflow =>
    exact mem_partsOfTurn_iterate htest htruthy hbody hflow List.mem_cons_self
  | again htest htruthy hbody hflow =>
    exact mem_partsOfTurn_iterate htest htruthy hbody hflow List.mem_cons_self
  | againAfter htest htruthy hbody hflow hstep =>
    refine mem_partsOfTurn_iterate htest htruthy hbody hflow (List.mem_cons_of_mem _ ?_)
    exact mem_behind.mpr ⟨_, _, hstep, List.mem_singleton_self _⟩
  | _ => exact List.mem_cons_self

/-- The parts are what a task leads to. -/
theorem mem_parts_iff : y ∈ x.parts rules ↔ Leads rules x y :=
  ⟨leads_of_mem_parts, mem_parts_of_leads⟩

end Moment

/-! ### Traces -/

/-- A task begins, or it has ended. -/
inductive Event where
  | begins (rules : Rules) (x : Moment)
  | ends (rules : Rules) (x : Moment)

namespace Event

def machine : Event → Machine
  | begins _ x => x.machine
  | ends rules x => x.final rules

def begun? : Event → Option Moment
  | begins _ x => some x
  | ends _ _ => none

end Event

namespace Moment

/-- The trace of a task whose parts are not nested more deeply than this. -/
def traceWithin (rules : Rules) : Nat → Moment → List Event
  | 0, x => [.begins rules x, .ends rules x]
  | depth + 1, x =>
    .begins rules x :: (x.parts rules).flatMap (traceWithin rules depth) ++ [.ends rules x]

/-- The trace of a task: it begins, its parts are run, and it ends. -/
def trace (rules : Rules) (x : Moment) : List Event := traceWithin rules x.fuel x

/-- The moments of a run, in the order in which their tasks begin. -/
def course (rules : Rules) (x : Moment) : List Moment := (x.trace rules).filterMap Event.begun?

end Moment

theorem Leads.fuel_eq (h : Leads rules x y) : x.fuel = y.fuel + 1 := by
  cases h <;> rfl

namespace Moment

theorem trace_eq (rules : Rules) (x : Moment) :
    x.trace rules =
      .begins rules x :: (x.parts rules).flatMap (trace rules) ++ [.ends rules x] := by
  obtain ⟨fuel, task, m⟩ := x
  cases fuel with
  | zero => rfl
  | succ fuel =>
    have hparts : (parts rules ⟨fuel + 1, task, m⟩).map (traceWithin rules fuel) =
        (parts rules ⟨fuel + 1, task, m⟩).map (trace rules) := by
      refine List.map_congr_left fun y hy => ?_
      rw [trace, ← Nat.succ.inj (mem_parts_iff.mp hy).fuel_eq]
    rw [trace, traceWithin, List.flatMap_def, hparts, List.flatMap_def]

theorem course_eq (rules : Rules) (x : Moment) :
    x.course rules = x :: (x.parts rules).flatMap (course rules) := by
  have hends : [Event.ends rules x].filterMap Event.begun? = [] := rfl
  rw [course, trace_eq, List.filterMap_append, hends, List.append_nil, List.filterMap_cons,
    List.filterMap_flatMap]
  rfl

/-- What begins in a trace is what the run passes through. -/
theorem begins_mem_trace_iff {rules' : Rules} :
    .begins rules' y ∈ x.trace rules ↔ rules' = rules ∧ Passes rules x y := by
  induction hfuel : x.fuel using Nat.strongRecOn generalizing x with
  | ind fuel ih =>
    subst hfuel
    rw [trace_eq, List.mem_append, List.mem_cons, List.mem_flatMap]
    constructor
    · rintro ((hsame | ⟨z, hz, hy⟩) | hends)
      · cases hsame
        exact ⟨rfl, .start⟩
      · have hleads := mem_parts_iff.mp hz
        obtain ⟨hrules, hpasses⟩ := (ih z.fuel hleads.fuel_lt rfl).mp hy
        exact ⟨hrules, hpasses.after hleads⟩
      · cases List.mem_singleton.mp hends
    · rintro ⟨rfl, hpasses⟩
      rcases hpasses.first with rfl | ⟨z, hleads, hpasses⟩
      · exact .inl (.inl rfl)
      · have hz := (ih z.fuel hleads.fuel_lt rfl).mpr ⟨rfl, hpasses⟩
        exact .inl (.inr ⟨z, mem_parts_iff.mpr hleads, hz⟩)

/-- The trace of a task stands in that of each task that leads to it. -/
theorem trace_within (h : Passes rules x y) : y.trace rules <:+: x.trace rules := by
  induction h with
  | start => exact List.infix_rfl
  | @step y z _ hleads ih =>
    refine .trans ?_ ih
    obtain ⟨ys, zs, hparts⟩ := List.append_of_mem (mem_parts_iff.mpr hleads)
    rw [trace_eq rules y, hparts, List.flatMap_append, List.flatMap_cons]
    refine ⟨.begins rules y :: ys.flatMap (trace rules),
      zs.flatMap (trace rules) ++ [.ends rules y], ?_⟩
    simp only [List.append_assoc, List.cons_append]

theorem ends_mem_trace (h : Passes rules x y) : .ends rules y ∈ x.trace rules := by
  apply (trace_within h).subset
  rw [trace_eq]
  exact List.mem_append_right _ (List.mem_singleton_self _)

/-- The course of a run is what it passes through. -/
theorem mem_course_iff : y ∈ x.course rules ↔ Passes rules x y := by
  rw [course, List.mem_filterMap]
  constructor
  · rintro ⟨s, hs, hbegun⟩
    cases s with
    | begins rules' z =>
      cases hbegun
      exact (begins_mem_trace_iff.mp hs).2
    | ends rules' z => cases hbegun
  · intro hpasses
    exact ⟨.begins rules y, begins_mem_trace_iff.mpr ⟨rfl, hpasses⟩, rfl⟩

end Moment

/-! ### Ends -/

/-- In front of the end of a task stands the rest of its trace. -/
def Event.Nested (events : List Event) : Prop :=
  ∀ before rules y behind, events = before ++ .ends rules y :: behind →
    ∃ front, before = front ++ .begins rules y :: (y.parts rules).flatMap (Moment.trace rules)

namespace Event.Nested

variable {events events' : List Event}

theorem nil : Nested [] := by
  intro before rules y behind h
  cases before <;> cases h

theorem append (h : Nested events) (h' : Nested events') : Nested (events ++ events') := by
  intro before rules y behind hevents
  rcases List.append_eq_append_iff.mp hevents with ⟨before', rfl, hrest⟩ | ⟨inner, hinner, hrest⟩
  · obtain ⟨front, rfl⟩ := h' before' rules y behind hrest
    exact ⟨events ++ front, (List.append_assoc ..).symm⟩
  · cases inner with
    | nil =>
      obtain ⟨front, hfront⟩ := h' [] rules y behind hrest.symm
      rw [List.nil_eq, List.append_eq_nil_iff] at hfront
      cases hfront.2
    | cons s inner =>
      cases hrest
      exact h before rules y inner hinner

/-- A task may begin anywhere. -/
theorem begins (h : Nested events) (rules : Rules) (x : Moment) :
    Nested (.begins rules x :: events) := by
  intro before rules' y behind hevents
  cases before with
  | nil => cases hevents
  | cons s before =>
    cases hevents
    obtain ⟨front, rfl⟩ := h before rules' y behind rfl
    exact ⟨.begins rules x :: front, rfl⟩

theorem flatMap {moments : List Moment} {f : Moment → List Event}
    (h : ∀ x ∈ moments, Nested (f x)) : Nested (moments.flatMap f) := by
  induction moments with
  | nil => exact nil
  | cons x moments ih =>
    rw [List.flatMap_cons]
    exact (h x List.mem_cons_self).append (ih fun y hy => h y (List.mem_cons_of_mem _ hy))

/-- In every trace the ends are nested. -/
theorem trace (rules : Rules) (x : Moment) : Nested (x.trace rules) := by
  induction hfuel : x.fuel using Nat.strongRecOn generalizing x with
  | ind fuel ih =>
    subst hfuel
    have hinner : Nested
        (.begins rules x :: (x.parts rules).flatMap (Moment.trace rules)) := by
      refine .begins (.flatMap fun y hy => ?_) rules x
      exact ih y.fuel (Moment.mem_parts_iff.mp hy).fuel_lt y rfl
    intro before rules' y behind hevents
    rw [Moment.trace_eq] at hevents
    rcases List.eq_nil_or_concat behind with rfl | ⟨behind, s, rfl⟩
    · have hsame := List.append_inj' hevents rfl
      cases hsame.2
      exact ⟨[], hsame.1.symm⟩
    · rw [List.concat_eq_append, ← List.cons_append, ← List.append_assoc] at hevents
      exact hinner before rules' y behind (List.append_inj' hevents rfl).1

end Event.Nested

end Lox
