import Lox.Proofs.Execution.Course
import Lox.Proofs.Execution.Methods

/-!
# Parameters

The parameters of a function that was resolved without errors are all different.  So the
frame that its body runs in binds each of them to the argument in the same place, and it
binds nothing else.
-/

namespace Lox

open Resolution Exec

variable {V : Visit → Prop} {rules : Rules} {r : Resolution} {m m' : Machine}

/-! ### Parameters are different -/

/-- Parameters that are declared without errors are new to the scope, and different. -/
theorem Resolution.distinct_of_declareParameters {parameters : List Token} {scope : Scope}
    {outer : List Scope} (hscopes : r.scopes = scope :: outer)
    (hclean : (r.declareParameters parameters).errors = []) :
    (∀ t ∈ parameters, scope.find? t.lexeme = none) ∧ (parameters.map Token.lexeme).Nodup := by
  induction parameters generalizing r scope with
  | nil => exact ⟨List.forall_mem_nil _, .nil⟩
  | cons parameter parameters ih =>
    change (((r.declare parameter).define parameter).declareParameters parameters).errors = []
      at hclean
    have hnext : ((r.declare parameter).define parameter).scopes =
        scope.insert parameter.lexeme true :: outer := by
      rw [scopes_define_declare (.refl (r.declare parameter)), scopes_mark, hscopes]
    obtain ⟨hnew, hnodup⟩ := ih hnext hclean
    have hfirst : scope.find? parameter.lexeme = none := by
      have hdeclared := (walked_declareParameters parameters _).before hclean
      have hunreported := not_of_reportIf ((walked_define parameter _).before hdeclared)
      simpa [declaresInnermost, hscopes, Bindings.contains] using hunreported
    have hrest : ∀ t ∈ parameters, t.lexeme ≠ parameter.lexeme ∧ scope.find? t.lexeme = none := by
      intro t ht
      have hfree := hnew t ht
      rw [Bindings.find?_insert] at hfree
      split at hfree
      · cases hfree
      · exact ⟨‹_›, hfree⟩
    constructor
    · intro t ht
      rcases List.mem_cons.mp ht with rfl | ht
      · exact hfirst
      · exact (hrest t ht).2
    · refine List.nodup_cons.mpr ⟨fun hmem => ?_, hnodup⟩
      obtain ⟨t, ht, hsame⟩ := List.mem_map.mp hmem
      exact (hrest t ht).1 hsame

theorem RoutineOk.nodup_parameters {routine : EnclosingRoutine} {d : FunctionDecl}
    (h : RoutineOk V routine d r) : (d.parameters.map Token.lexeme).Nodup := by
  have hscopes : ({ r with routine := routine, loopDepth := 0 } : Resolution).openScope.scopes =
      .empty :: r.scopes := rfl
  have hclean := (Stmt.walkedEach d.body _).before h.body.passed.clean
  exact (distinct_of_declareParameters hscopes hclean).2

/-! ### Parameters are bound -/

/-- The frame binds each parameter to the argument in the same place, and nothing else. -/
def Frames.BindsEach (frames : Frames Value) (frame : FrameId) (parameters : List Token)
    (arguments : List Value) : Prop :=
  ∀ name value, frames.findIn? frame name = some value ↔
    ∃ (i : Nat) (parameter : Token), parameters[i]? = some parameter ∧
      parameter.lexeme = name ∧ arguments[i]? = some value

/-- Names that are different are bound each to its own value. -/
theorem Exec.findIn?_defineEach {pairs : List (Token × Value)} {frame : FrameId}
    (hrun : defineEach frame pairs m = .ok () m')
    (hlt : frame < m.frames.size) (hnodup : (pairs.map fun pair => pair.1.lexeme).Nodup)
    (name : String) (value : Value) :
    m'.frames.findIn? frame name = some value ↔
      (∃ pair ∈ pairs, pair.1.lexeme = name ∧ pair.2 = value) ∨
        (∀ pair ∈ pairs, pair.1.lexeme ≠ name) ∧ m.frames.findIn? frame name = some value := by
  induction pairs generalizing m with
  | nil =>
    cases hrun
    simp
  | cons pair pairs ih =>
    obtain ⟨⟨⟩, m₁, hfirst, hrest⟩ := of_bind_ok hrun
    cases hfirst
    rw [List.map_cons, List.nodup_cons] at hnodup
    have hlt' : frame < (m.frames.define frame pair.1.lexeme pair.2).size := by
      rw [Frames.size_define]
      exact hlt
    rw [ih hrest hlt' hnodup.2]
    simp only [Frames.findIn?_define _ _ _ _ _ _ hlt, true_and, List.mem_cons, exists_eq_or_imp,
      forall_eq_or_imp]
    -- The first name is bound by the first pair, since no later pair has it.
    by_cases hname : name = pair.1.lexeme
    · subst hname
      have hnone : ∀ other ∈ pairs, other.1.lexeme ≠ pair.1.lexeme :=
        fun other hother hsame => hnodup.1 (hsame ▸ List.mem_map_of_mem hother)
      simp only [if_true, Option.some.injEq, ne_eq, not_true_eq_false, false_and, or_false,
        true_and]
      constructor
      · rintro (hlater | ⟨-, hfirst⟩)
        · exact .inr hlater
        · exact .inl hfirst
      · rintro (hfirst | hlater)
        · exact .inr ⟨hnone, hfirst⟩
        · exact .inl hlater
    · -- Any other name is bound by a later pair or was bound before.
      have hname' : pair.1.lexeme ≠ name := fun hsame => hname hsame.symm
      simp [hname, hname']

/-- Different parameters are bound in order, in a new frame. -/
theorem Exec.bindsEach_bindArguments {f : Function} {arguments : List Value} {frame : FrameId}
    (hnodup : (f.declaration.parameters.map Token.lexeme).Nodup)
    (harity : f.arity = arguments.length) (h : bindArguments f arguments m = .ok frame m') :
    m'.frames.BindsEach frame f.declaration.parameters arguments := by
  obtain ⟨next, m₁, hnext, hbound⟩ := of_bind_ok h
  cases hnext
  obtain ⟨⟨⟩, m₂, hrun, hframe⟩ := of_bind_ok hbound
  cases hframe
  have hkeys : (f.declaration.parameters.zip arguments).map (fun pair => pair.1.lexeme) =
      f.declaration.parameters.map Token.lexeme := by
    have hfirst := List.map_fst_zip (Nat.le_of_eq harity)
    rw [← congrArg (List.map Token.lexeme) hfirst, List.map_map]
    rfl
  intro name value
  rw [findIn?_defineEach hrun (Frames.next_lt_child _ _) (hkeys ▸ hnodup)]
  simp only [Frames.findIn?_child_next, reduceCtorEq, and_false, or_false]
  constructor
  · rintro ⟨pair, hpair, hname, hvalue⟩
    obtain ⟨i, hi⟩ := List.mem_iff_getElem?.mp hpair
    obtain ⟨hparameter, hargument⟩ := List.getElem?_zip_eq_some.mp hi
    exact ⟨i, pair.1, hparameter, hname, hargument.trans (congrArg some hvalue)⟩
  · rintro ⟨i, parameter, hparameter, hname, hargument⟩
    have hi : (f.declaration.parameters.zip arguments)[i]? = some (parameter, value) :=
      List.getElem?_zip_eq_some.mpr ⟨hparameter, hargument⟩
    exact ⟨_, List.mem_iff_getElem?.mpr ⟨i, hi⟩, hname, rfl⟩

/--
The function is entered with as many arguments as it has parameters: its body is run once,
in a new frame within the closure that binds the parameters to the arguments in order.
-/
def Moment.Enters (rules : Rules) (x : Moment) (f : Function) (arguments : List Value) : Prop :=
  f.arity = arguments.length ∧ ∃ (frame : FrameId) (m : Machine),
    x.parts rules =
      [⟨x.fuel - 1, .executeEach f.declaration.body, { m with current := frame }⟩] ∧
    m.frames.enclosing? frame = some f.closure ∧
    m.frames.BindsEach frame f.declaration.parameters arguments

/-- A function that is called is entered in this way. -/
theorem Moment.Ok.enters {fuel : Nat} {f : Function} {arguments : List Value} {line : Nat}
    (h : Moment.Ok V ⟨fuel + 1, .callFunction f arguments line, m⟩) :
    Enters rules ⟨fuel + 1, .callFunction f arguments line, m⟩ f arguments := by
  obtain ⟨hm, hf, hvalues, harity⟩ := h
  obtain ⟨routine, r, hroutine, hmirrors, -⟩ := hf.routine
  obtain ⟨frame, m', hbind⟩ := bindArguments_ok f arguments m
  obtain ⟨-, -, henclosing⟩ :=
    Keeps.of_ok (Keeps.bindArguments hm hroutine hmirrors hvalues harity) hbind
  exact ⟨harity, frame, m', behind_of_ok hbind _, henclosing,
    bindsEach_bindArguments hroutine.nodup_parameters harity hbind⟩

end Lox
