import Lox.Proofs.Execution.Sound

/-!
# The parts of resolved code

A part of a program that was resolved without errors was itself resolved without
errors, in scopes that are known.  For an expression these are the scopes of its
parts as well.
-/

namespace Lox

open Resolution

variable {V : Visit → Prop} {r r' : Resolution} {visits visits' : List Visit}
  {scopes : List Scope}

/-- A walk in two parts passed if both parts did. -/
theorem Passed.append (h : Passed V r' (visits ++ visits')) (hwalked : Walked r r' visits') :
    Passed V r visits ∧ Passed V r' visits' := by
  constructor
  · exact ⟨hwalked.before h.clean, fun v hv => h.visited v (List.mem_append_left _ hv)⟩
  · exact ⟨h.clean, fun v hv => h.visited v (List.mem_append_right _ hv)⟩

theorem Passed.before (h : Passed V r' visits) (hwalked : Walked r r' []) : Passed V r visits :=
  ⟨hwalked.before h.clean, h.visited⟩

/-! ### Expressions -/

section

variable (V) (scopes)

/-- An expression that was resolved without errors in these scopes. -/
def ExprOk (e : Expr) : Prop :=
  ∃ r, r.scopes = scopes ∧ Standing r ∧ Passed V (e.resolve r) (e.visits r)

def ExprEachOk (es : List Expr) : Prop :=
  ∃ r, r.scopes = scopes ∧ Standing r ∧ Passed V (Expr.resolveEach es r) (Expr.visitsEach es r)

/--
An occurrence that was visited in these scopes.  A superclass is read where the class
counts as entered although its scopes are not open yet.
-/
def PlaceOk (kind : OccurrenceKind) (place : Occurrence) : Prop :=
  ∃ r, r.scopes = scopes ∧ (∀ scope ∈ scopes.tail, ∀ name, scope.find? name ≠ some false) ∧
    (kind ≠ .read → Stack scopes r.enclosingClass) ∧ V ⟨kind, place, r⟩

end

theorem ExprOk.of_sequence {first second : Expr} (hscopes : r.scopes = scopes)
    (hstanding : Standing r)
    (h : Passed V (second.resolve (first.resolve r))
      (first.visits r ++ second.visits (first.resolve r))) :
    ExprOk V scopes first ∧ ExprOk V scopes second := by
  obtain ⟨hfirst, hsecond⟩ := h.append (second.walked _)
  have hsame := first.sameScopes_resolve r
  exact ⟨⟨r, hscopes, hstanding, hfirst⟩,
    ⟨_, hsame.scopes.trans hscopes, hstanding.of_sameScopes hsame, hsecond⟩⟩

theorem ExprOk.binary {left right : Expr} {operator : Token}
    (h : ExprOk V scopes (.binary left operator right)) :
    ExprOk V scopes left ∧ ExprOk V scopes right := by
  obtain ⟨r, hscopes, hstanding, hpassed⟩ := h
  exact of_sequence hscopes hstanding hpassed

theorem ExprOk.logical {left right : Expr} {operator : Token}
    (h : ExprOk V scopes (.logical left operator right)) :
    ExprOk V scopes left ∧ ExprOk V scopes right := by
  obtain ⟨r, hscopes, hstanding, hpassed⟩ := h
  exact of_sequence hscopes hstanding hpassed

theorem ExprOk.unary {operand : Expr} {operator : Token}
    (h : ExprOk V scopes (.unary operator operand)) : ExprOk V scopes operand := h

theorem ExprOk.get {object : Expr} {name : Token} (h : ExprOk V scopes (.get object name)) :
    ExprOk V scopes object := h

theorem ExprOk.set {object value : Expr} {name : Token}
    (h : ExprOk V scopes (.set object name value)) :
    ExprOk V scopes object ∧ ExprOk V scopes value := by
  obtain ⟨r, hscopes, hstanding, hpassed⟩ := h
  exact (of_sequence hscopes hstanding hpassed).symm

theorem ExprOk.call {callee : Expr} {paren : Token} {arguments : List Expr}
    (h : ExprOk V scopes (.call callee paren arguments)) :
    ExprOk V scopes callee ∧ ExprEachOk V scopes arguments := by
  obtain ⟨r, hscopes, hstanding, hpassed⟩ := h
  obtain ⟨hcallee, harguments⟩ := hpassed.append (Expr.walkedEach _ arguments)
  have hsame := callee.sameScopes_resolve r
  exact ⟨⟨r, hscopes, hstanding, hcallee⟩,
    ⟨_, hsame.scopes.trans hscopes, hstanding.of_sameScopes hsame, harguments⟩⟩

theorem ExprEachOk.cons {e : Expr} {rest : List Expr} (h : ExprEachOk V scopes (e :: rest)) :
    ExprOk V scopes e ∧ ExprEachOk V scopes rest := by
  obtain ⟨r, hscopes, hstanding, hpassed⟩ := h
  obtain ⟨hfirst, hrest⟩ := hpassed.append (Expr.walkedEach _ rest)
  have hsame := e.sameScopes_resolve r
  exact ⟨⟨r, hscopes, hstanding, hfirst⟩,
    ⟨_, hsame.scopes.trans hscopes, hstanding.of_sameScopes hsame, hrest⟩⟩

theorem PlaceOk.of_standing {kind : OccurrenceKind} {place : Occurrence}
    (hscopes : r.scopes = scopes) (hstanding : Standing r) (hvisited : V ⟨kind, place, r⟩) :
    PlaceOk V scopes kind place := by
  subst hscopes
  exact ⟨r, rfl, hstanding.readable, fun _ => hstanding.stack, hvisited⟩

theorem ExprOk.read {place : Occurrence} (h : ExprOk V scopes (.read place)) :
    PlaceOk V scopes .read place := by
  obtain ⟨r, hscopes, hstanding, hpassed⟩ := h
  exact .of_standing hscopes hstanding (hpassed.visited _ List.mem_cons_self)

theorem ExprOk.this {place : Occurrence} (h : ExprOk V scopes (.this place)) :
    PlaceOk V scopes .this place := by
  obtain ⟨r, hscopes, hstanding, hpassed⟩ := h
  exact .of_standing hscopes hstanding (hpassed.visited _ List.mem_cons_self)

theorem ExprOk.super {place : Occurrence} {method : Token}
    (h : ExprOk V scopes (.super place method)) : PlaceOk V scopes .super place := by
  obtain ⟨r, hscopes, hstanding, hpassed⟩ := h
  exact .of_standing hscopes hstanding (hpassed.visited _ List.mem_cons_self)

theorem ExprOk.assign {place : Occurrence} {value : Expr}
    (h : ExprOk V scopes (.assign place value)) :
    ExprOk V scopes value ∧ PlaceOk V scopes .assign place := by
  obtain ⟨r, hscopes, hstanding, hpassed⟩ := h
  have hlocate := walked_locate (v := ⟨.assign, place, value.resolve r⟩) trivial
  obtain ⟨hvalue, hplace⟩ := hpassed.append hlocate
  have hsame := value.sameScopes_resolve r
  exact ⟨⟨r, hscopes, hstanding, hvalue⟩,
    .of_standing (hsame.scopes.trans hscopes) (hstanding.of_sameScopes hsame)
      (hplace.visited _ List.mem_cons_self)⟩

/-! ### Statements -/

section

variable (V) (r)

/-- A statement that was resolved without errors in this state. -/
structure StmtOk (s : Stmt) : Prop where
  passed : Passed V (s.resolve r) (s.visits r)
  shaped : s.Shaped
  ready : Ready r

structure StmtEachOk (ss : List Stmt) : Prop where
  passed : Passed V (Stmt.resolveEach ss r) (Stmt.visitsEach ss r)
  shaped : Stmt.ShapedEach ss
  ready : Ready r

structure MethodsOk (ds : List FunctionDecl) : Prop where
  passed : Passed V (FunctionDecl.resolveMethods ds r) (FunctionDecl.visitsMethods ds r)
  shaped : FunctionDecl.ShapedEach ds
  settled : Settled r

end

theorem StmtEachOk.cons {s : Stmt} {rest : List Stmt} (h : StmtEachOk V r (s :: rest)) :
    StmtOk V r s ∧ StmtEachOk V (s.resolve r) rest := by
  obtain ⟨hfirst, hrest⟩ := h.passed.append (Stmt.walkedEach rest _)
  exact ⟨⟨hfirst, h.shaped.1, h.ready⟩, ⟨hrest, h.shaped.2, s.ready_resolve h.shaped.1 h.ready⟩⟩

theorem StmtOk.expression {value : Expr} (h : StmtOk V r (.expression value)) :
    ExprOk V r.scopes value :=
  ⟨r, rfl, h.ready.standing, h.passed⟩

theorem StmtOk.initializer {name : Token} {value : Expr}
    (h : StmtOk V r (.var name (some value))) : ExprOk V (r.declare name).scopes value := by
  have hstanding := (h.ready.declare h.shaped).enterInitializer name.lexeme
  refine ⟨_, scopes_enterInitializer name.lexeme _, hstanding, ?_⟩
  have hpassed := h.passed.before (walked_define name _)
  refine ⟨?_, hpassed.visited⟩
  have hclean : ((r.declare name).inInitializer name.lexeme value.resolve).errors = [] :=
    hpassed.clean
  cases hscopes : (r.declare name).scopes with
  | nil => simpa only [Resolution.inInitializer, Resolution.enterInitializer, hscopes] using hclean
  | cons scope outer =>
    simpa only [Resolution.inInitializer, Resolution.enterInitializer, hscopes] using hclean

theorem StmtOk.block {body : List Stmt} (h : StmtOk V r (.block body)) :
    StmtEachOk V r.openScope body :=
  ⟨⟨h.passed.clean, h.passed.visited⟩, h.shaped, h.ready.toSettled.openScope⟩

/-- A branch of a statement stands in the scopes of the statement. -/
theorem StmtOk.conditional {condition : Expr} {thenBranch : Stmt} {elseBranch : Option Stmt}
    (h : StmtOk V r (.conditional condition thenBranch elseBranch)) :
    ExprOk V r.scopes condition ∧
      StmtOk V (condition.resolve r) thenBranch ∧ thenBranch.declared? = none ∧
      ∀ s ∈ elseBranch, StmtOk V (thenBranch.resolve (condition.resolve r)) s ∧
        s.declared? = none := by
  have hready := h.ready.of_sameScopes (condition.sameScopes_resolve r)
  cases elseBranch with
  | none =>
    obtain ⟨hcondition, hthen⟩ := h.passed.append (thenBranch.walked _)
    exact ⟨⟨r, rfl, h.ready.standing, hcondition⟩, ⟨hthen, h.shaped.2, hready⟩, h.shaped.1,
      fun s hs => by cases hs⟩
  | some elseBranch =>
    obtain ⟨hbefore, helse⟩ := h.passed.append (elseBranch.walked _)
    obtain ⟨hcondition, hthen⟩ := hbefore.append (thenBranch.walked _)
    refine ⟨⟨r, rfl, h.ready.standing, hcondition⟩, ⟨hthen, h.shaped.1.2, hready⟩,
      h.shaped.1.1, ?_⟩
    intro s hs
    cases hs
    exact ⟨⟨helse, h.shaped.2.2, thenBranch.ready_resolve h.shaped.1.2 hready⟩, h.shaped.2.1⟩

/-- The parts of a loop, all of which stand in the scopes of the loop. -/
structure LoopOk (V : Visit → Prop) (r : Resolution) (condition : Expr) (body : Stmt)
    (increment : Option Expr) : Prop where
  test : ExprOk V r.scopes condition
  inner : StmtOk V (condition.resolve r).enterLoop body
  closed : body.declared? = none
  step : ∀ e ∈ increment, ExprOk V r.scopes e

theorem StmtOk.loop {condition : Expr} {body : Stmt} {increment : Option Expr}
    (h : StmtOk V r (.loop condition body increment)) : LoopOk V r condition body increment := by
  have hsame := condition.sameScopes_resolve r
  have hready := h.ready.of_sameScopes hsame
  obtain ⟨hbefore, hincrement⟩ := h.passed.append
    (Expr.walkedIn? ((condition.resolve r).inLoop body.resolve) increment)
  obtain ⟨hcondition, hbody⟩ := hbefore.append (body.walked (condition.resolve r).enterLoop)
  refine ⟨⟨r, rfl, h.ready.standing, hcondition.clean, hcondition.visited⟩,
    ⟨⟨hbody.clean, hbody.visited⟩, h.shaped.2, hready.enterLoop⟩, h.shaped.1, ?_⟩
  intro e he
  cases he
  have hscopes := body.scopes_resolve h.shaped.2 (condition.resolve r).enterLoop
  rw [h.shaped.1] at hscopes
  have hbehind := body.ready_resolve h.shaped.2 hready.enterLoop
  exact ⟨(condition.resolve r).inLoop body.resolve, hscopes.trans hsame.scopes,
    ⟨hbehind.stack, hbehind.standing.readable⟩, hincrement.clean, hincrement.visited⟩

theorem StmtOk.function {d : FunctionDecl} (h : StmtOk V r (.function d)) :
    IsName d.name.lexeme ∧
      RoutineOk V .function d ((r.declare d.name).define d.name) := by
  have hmark := h.ready.mark h.shaped.1
  have hscopes := scopes_define_declare (SameScopes.refl (r.declare d.name))
  have hclass : ((r.declare d.name).define d.name).enclosingClass =
      (r.mark d.name.lexeme true).enclosingClass := by
    rw [((sameOuter_declare d.name r).trans (sameOuter_define d.name _)).enclosingClass,
      enclosingClass_mark]
  refine ⟨h.shaped.1, h.passed, h.shaped.2, ⟨?_, ?_⟩, by decide⟩
  · rw [hscopes, hclass]
    exact hmark.stack
  · rw [hscopes]
    exact hmark.readable

theorem StmtOk.returning {keyword : Token} {value : Option Expr}
    (h : StmtOk V r (.returning keyword value)) :
    r.routine ≠ .topLevel ∧
      ∀ e ∈ value, ExprOk V r.scopes e ∧ r.routine ≠ .initializer := by
  cases value with
  | none =>
    have htop := not_of_reportIf h.passed.clean
    exact ⟨of_decide_eq_false htop, fun e he => by cases he⟩
  | some e =>
    have hbefore := (e.walked _).before h.passed.clean
    have hvalue := walked_reportIf ((r.reportIf (r.routine = .topLevel) .returnAtTopLevel
      keyword).routine = .initializer) .returnValueFromInitializer keyword
      (r.reportIf (r.routine = .topLevel) .returnAtTopLevel keyword)
    have htop := not_of_reportIf (hvalue.before hbefore)
    have hinit := of_decide_eq_false (not_of_reportIf hbefore)
    rw [(sameScopes_reportIf (r.routine = .topLevel) .returnAtTopLevel keyword r).routine] at hinit
    refine ⟨of_decide_eq_false htop, ?_⟩
    intro e' he'
    cases he'
    refine ⟨?_, hinit⟩
    have hsame := (sameScopes_reportIf (r.routine = .topLevel) .returnAtTopLevel keyword r).trans
      (sameScopes_reportIf ((r.reportIf (r.routine = .topLevel) .returnAtTopLevel
        keyword).routine = .initializer) .returnValueFromInitializer keyword _)
    exact ⟨_, hsame.scopes, h.ready.standing.of_sameScopes hsame, h.passed⟩

theorem StmtOk.breaking {keyword : Token} (h : StmtOk V r (.breaking keyword)) :
    r.loopDepth ≠ 0 :=
  of_decide_eq_false (not_of_reportIf h.passed.clean)

theorem StmtOk.continuing {keyword : Token} (h : StmtOk V r (.continuing keyword)) :
    r.loopDepth ≠ 0 :=
  of_decide_eq_false (not_of_reportIf h.passed.clean)

/-- A superclass is read where the name of the class is there already. -/
theorem StmtOk.superclass {name : Token} {parent : Occurrence} {methods : List FunctionDecl}
    (h : StmtOk V r (.class name (some parent) methods)) :
    PlaceOk V (r.mark name.lexeme true).scopes .read parent := by
  have hmark := h.ready.mark h.shaped.1
  exact ⟨_, scopes_enterSuperclass name parent r, hmark.standing.readable,
    fun hkind => absurd rfl hkind, h.passed.visited _ List.mem_cons_self⟩

theorem StmtOk.methods {name : Token} {superclass : Option Occurrence}
    {methods : List FunctionDecl} (h : StmtOk V r (.class name superclass methods)) :
    MethodsOk V ((r.enterClass name superclass).enterClassBody superclass.isSome) methods := by
  have hwalked := FunctionDecl.walkedMethods methods
    ((r.enterClass name superclass).enterClassBody superclass.isSome)
  refine ⟨⟨?_, ?_⟩, h.shaped.2, h.ready.enterClassBody h.shaped.1 superclass⟩
  · have hclean := h.passed.clean
    cases superclass with
    | none => exact hclean
    | some parent => exact hclean
  · intro v hv
    exact h.passed.visited v (List.mem_append_right _ hv)

theorem MethodsOk.cons {d : FunctionDecl} {rest : List FunctionDecl}
    (h : MethodsOk V r (d :: rest)) :
    (∃ routine, RoutineOk V routine d r ∧ (d.isInitializer = true → routine = .initializer)) ∧
      ∃ r', r'.scopes = r.scopes ∧ r'.enclosingClass = r.enclosingClass ∧
        MethodsOk V r' rest := by
  obtain ⟨hfirst, hrest⟩ := h.passed.append (FunctionDecl.walkedMethods rest _)
  refine ⟨⟨_, ⟨hfirst, h.shaped.1, h.settled, ?_⟩, fun hinit => if_pos hinit⟩,
    ⟨_, d.scopes_resolve _ r, (d.sameOuter_resolve _ r).enclosingClass,
      hrest, h.shaped.2, d.settled_resolve h.settled _⟩⟩
  split <;> decide

theorem RoutineOk.isName {routine : EnclosingRoutine} {d : FunctionDecl}
    (h : RoutineOk V routine d r) : ∀ t ∈ d.parameters, IsName t.lexeme := by
  have hshaped := h.shaped
  cases d with
  | mk name parameters body => exact hshaped.1

theorem RoutineOk.body {routine : EnclosingRoutine} {d : FunctionDecl}
    (h : RoutineOk V routine d r) :
    StmtEachOk V (r.enterRoutine routine d.parameters) d.body := by
  cases d with
  | mk name parameters body =>
    exact ⟨⟨h.passed.clean, h.passed.visited⟩, h.shaped.2,
      h.settled.enterRoutine routine h.shaped.1⟩

end Lox
