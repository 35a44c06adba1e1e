import Lox.Proofs.Execution.Similar
import Lox.Proofs.Likeness.Runs
import Lox.Proofs.Session.Reached

/-!
# What looks like itself

If a likeness lets tokens and names as they are, code looks like itself, provided that
its occurrences do.  So a sound machine looks like itself, also if the other one has
further distances.
-/

namespace Lox

/-- At the top level tokens look like themselves, and so do the occurrences of which `P` holds. -/
structure Likeness.Reflexive (K : Likeness) (P : Occurrence → Prop) : Prop where
  allowed : K.allowed .same
  token : ∀ t, K.token t t
  binder : ∀ t, K.binder .same t t
  place : ∀ p, P p → K.place .top p p

variable {K : Likeness} {P : Occurrence → Prop}

abbrev Occurrence.AllOf (P : Occurrence → Prop) (occurrences : List (OccurrenceKind × Occurrence)) :
    Prop :=
  ∀ o ∈ occurrences, P o.2

theorem Occurrence.allOf_append {left right : List (OccurrenceKind × Occurrence)} :
    AllOf P (left ++ right) ↔ AllOf P left ∧ AllOf P right :=
  List.forall_mem_append

theorem Occurrence.allOf_cons {o : OccurrenceKind × Occurrence}
    {rest : List (OccurrenceKind × Occurrence)} : AllOf P (o :: rest) ↔ P o.2 ∧ AllOf P rest :=
  List.forall_mem_cons

open Occurrence

/-! ### Code -/

mutual

theorem Expr.like_self (hK : K.Reflexive P) : (e : Expr) → AllOf P e.occurrences →
    ExprLike K .top e e
  | .literal _, _ => .literal
  | .unary operator operand, h => .unary (hK.token operator) (operand.like_self hK h)
  | .binary left operator right, h =>
    .binary (left.like_self hK (allOf_append.mp h).1) (hK.token operator)
      (right.like_self hK (allOf_append.mp h).2)
  | .logical left operator right, h =>
    .logical (left.like_self hK (allOf_append.mp h).1) (hK.token operator)
      (right.like_self hK (allOf_append.mp h).2)
  | .group inner, h => .group (inner.like_self hK h)
  | .read place, h => .read (hK.place place (allOf_cons.mp h).1)
  | .assign place value, h =>
    .assign (hK.place place (allOf_cons.mp h).1) (value.like_self hK (allOf_cons.mp h).2)
  | .call callee paren arguments, h =>
    .call (callee.like_self hK (allOf_append.mp h).1) (hK.token paren)
      (Expr.likeEach_self hK arguments (allOf_append.mp h).2)
  | .get object name, h => .get (object.like_self hK h) (hK.token name)
  | .set object name value, h =>
    .set (object.like_self hK (allOf_append.mp h).1) (hK.token name)
      (value.like_self hK (allOf_append.mp h).2)
  | .this place, h => .this (hK.place place (allOf_cons.mp h).1)
  | .super place method, h => .super (hK.place place (allOf_cons.mp h).1) (hK.token method)
termination_by structural e => e

theorem Expr.likeEach_self (hK : K.Reflexive P) : (es : List Expr) →
    AllOf P (Expr.occurrencesEach es) → ExprEachLike K .top es es
  | [], _ => .nil
  | e :: rest, h =>
    .cons (e.like_self hK (allOf_append.mp h).1) (Expr.likeEach_self hK rest (allOf_append.mp h).2)
termination_by structural es => es

end

theorem Expr.likeIn?_self (hK : K.Reflexive P) (e : Option Expr)
    (h : AllOf P (Expr.occurrencesIn? e)) : ExprIn?Like K .top e e := by
  cases e with
  | none => exact .none
  | some e => exact .some (e.like_self hK h)

mutual

theorem Stmt.like_self (hK : K.Reflexive P) : (s : Stmt) → AllOf P s.occurrences →
    StmtLike K .top s s
  | .expression value, h => .expression (value.like_self hK h)
  | .var name value, h => .var (hK.binder name) (Expr.likeIn?_self hK value h)
  | .block body, h => by
    have hbody := Stmt.likeEach_self hK body h
    rw [← Surroundings.enter_top] at hbody
    exact .block hK.allowed hbody
  | .conditional condition thenBranch none, h =>
    .conditional (condition.like_self hK (allOf_append.mp h).1)
      (thenBranch.like_self hK (allOf_append.mp h).2)
  | .conditional condition thenBranch (some elseBranch), h => by
    obtain ⟨hbefore, helse⟩ := allOf_append.mp h
    obtain ⟨hcondition, hthen⟩ := allOf_append.mp hbefore
    exact .alternative (condition.like_self hK hcondition) (thenBranch.like_self hK hthen)
      (elseBranch.like_self hK helse)
  | .loop condition body increment, h => by
    obtain ⟨hbefore, hincrement⟩ := allOf_append.mp h
    obtain ⟨hcondition, hbody⟩ := allOf_append.mp hbefore
    exact .loop (condition.like_self hK hcondition) (body.like_self hK hbody)
      (Expr.likeIn?_self hK increment hincrement)
  | .function d, h => .function rfl (d.like_self hK h)
  | .returning keyword value, h => .returning (hK.token keyword) (Expr.likeIn?_self hK value h)
  | .breaking keyword, _ => .breaking (hK.token keyword)
  | .continuing keyword, _ => .continuing (hK.token keyword)
  | .class name none methods, h => by
    have hmethods := FunctionDecl.likeEach_self hK methods h
    rw [← Surroundings.enterClass_top false] at hmethods
    exact .class rfl (hK.token name) .none hmethods
  | .class name (some place) methods, h => by
    obtain ⟨hplace, hrest⟩ := allOf_cons.mp h
    have hmethods := FunctionDecl.likeEach_self hK methods hrest
    rw [← Surroundings.enterClass_top true] at hmethods
    exact .class rfl (hK.token name) (.some (hK.place place hplace)) hmethods
termination_by structural s => s

theorem Stmt.likeEach_self (hK : K.Reflexive P) : (ss : List Stmt) →
    AllOf P (Stmt.occurrencesEach ss) → StmtEachLike K .top ss ss
  | [], _ => .nil
  | s :: rest, h =>
    .cons (s.like_self hK (allOf_append.mp h).1) (Stmt.likeEach_self hK rest (allOf_append.mp h).2)
termination_by structural ss => ss

theorem FunctionDecl.like_self (hK : K.Reflexive P) : (d : FunctionDecl) →
    AllOf P d.occurrences → FunctionLike K .top d d
  | ⟨name, parameters, body⟩, h => by
    have hbody := Stmt.likeEach_self hK body h
    rw [← Surroundings.enter_top] at hbody
    have hparameters : List.Forall₂ (K.binder .same) parameters parameters :=
      List.forall₂_same.mpr fun t _ => hK.binder t
    exact .mk hK.allowed (hK.token name) hparameters hbody
termination_by structural d => d

theorem FunctionDecl.likeEach_self (hK : K.Reflexive P) : (ds : List FunctionDecl) →
    AllOf P (FunctionDecl.occurrencesEach ds) → FunctionEachLike K .top ds ds
  | [], _ => .nil
  | d :: rest, h =>
    .cons (d.like_self hK (allOf_append.mp h).1)
      (FunctionDecl.likeEach_self hK rest (allOf_append.mp h).2)
termination_by structural ds => ds

end

/-! ### Machines -/

def World.same : World := fun _ => .same

theorem Follows.same {frames : Frames Value} {f : Nat} (hf : f < frames.size) :
    Follows World.same frames .top f :=
  ⟨hf, fun _ _ _ => rfl⟩

section

variable {V : Visit → Prop} {frames : Frames Value} {m m' : Machine}

/-- A function that was resolved has only occurrences that were visited. -/
theorem RoutineOk.like_self (hK : K.Reflexive P) (hV : ∀ v, V v → P v.place)
    {routine : EnclosingRoutine} {d : FunctionDecl} {r : Resolution} (h : RoutineOk V routine d r) :
    FunctionLike K .top d d := by
  apply d.like_self hK
  intro o ho
  have hperm := d.perm_visits routine r
  obtain ⟨v, hv, rfl⟩ := List.mem_map.mp (hperm.symm.subset ho)
  exact hV v (h.passed.visited v hv)

theorem FunctionOk.like_self (hK : K.Reflexive P) (hV : ∀ v, V v → P v.place)
    (hglobal : 0 < frames.size) {f : Function} (h : FunctionOk V frames f) :
    ClosureLike K .same frames true f f := by
  obtain ⟨routine, r, hroutine, hmirrors, -⟩ := h.routine
  refine ⟨rfl, rfl, rfl, .top, ?_, .same (hmirrors.lt hglobal)⟩
  exact hroutine.like_self hK hV

theorem MethodOk.like_self (hK : K.Reflexive P) (hV : ∀ v, V v → P v.place)
    (hglobal : 0 < frames.size) {inherited : List ClassLayer} {f : Function}
    (h : MethodOk V frames inherited f) : ClosureLike K .same frames false f f := by
  obtain ⟨routine, r, outer, hroutine, -, hmirrors, -⟩ := h
  refine ⟨rfl, rfl, rfl, .top, ?_, .same (hmirrors.lt hglobal)⟩
  have hcode := hroutine.like_self hK hV
  rw [← Surroundings.enter_top] at hcode
  exact hcode

theorem ClassOk.like_self (hK : K.Reflexive P) (hV : ∀ v, V v → P v.place)
    (hglobal : 0 < frames.size) {c : Class} (h : ClassOk V frames c) :
    ClassLike K .same frames c c := by
  apply List.forall₂_same.mpr
  intro layer hlayer
  refine ⟨rfl, rfl, ?_⟩
  obtain ⟨before, inherited, hchain⟩ := List.append_of_mem hlayer
  intro name
  exact Option.Rel.self fun f hfound =>
    (h before layer inherited hchain name f hfound).like_self hK hV hglobal

theorem ValueOk.like_self (hK : K.Reflexive P) (hV : ∀ v, V v → P v.place)
    (hglobal : 0 < frames.size) {value : Value} (h : ValueOk V frames value) :
    ValueLike K .same frames value value := by
  cases value with
  | nil => exact .nil
  | bool => exact .bool
  | number => exact .number
  | string => exact .string
  | native => exact .native
  | function f => exact .function (FunctionOk.like_self hK hV hglobal h)
  | «class» c => exact .class (ClassOk.like_self hK hV hglobal h)
  | object owner => exact .object rfl (ClassOk.like_self hK hV hglobal h)

/-- A sound machine looks like itself with other distances, if those of its occurrences agree. -/
theorem Sound.like_self {line : Nat → Nat → Prop} (h : Sound V m) (hK : K.Reflexive P)
    (hV : ∀ v, V v → P v.place) {distances : Distances}
    (hfaithful : Faithful K line m.distances distances) :
    MachineLike K line .same m { m with distances := distances } := by
  refine ⟨hfaithful, fun _ => hK.allowed, rfl, rfl, fun _ => rfl, ?_, rfl, ?_, rfl, rfl, rfl, rfl, rfl⟩
  · intro f name
    exact Option.Rel.self fun value hfound =>
      (h.bound f name value hfound).like_self hK hV h.global
  · intro i name
    exact Option.Rel.self fun value hfound =>
      (forall_fields_getD h.fields hfound).like_self hK hV h.global

end

end Lox
