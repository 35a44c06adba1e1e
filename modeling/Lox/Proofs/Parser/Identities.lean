import Lox.Parser.Statement

/-!
# Identities are never handed out again

However a parser ends, the next unused identity is not less than before.
-/

namespace Lox.Parser

variable {α β : Type}

def leave : EStateM.Result Stop State α → State
  | .ok _ s => s
  | .error _ s => s

/-- The next unused identity never becomes less. -/
def Advancing (p : Parser α) : Prop := ∀ s, s.nextId ≤ (leave (p s)).nextId

theorem advancing_pure (a : α) : Advancing (pure a : Parser α) := fun _ => Nat.le_refl _

theorem advancing_bind {p : Parser α} {f : α → Parser β} (hp : Advancing p)
    (hf : ∀ a, Advancing (f a)) : Advancing (p >>= f) := by
  intro s
  have hfirst := hp s
  change s.nextId ≤ (leave (EStateM.bind p f s)).nextId
  unfold EStateM.bind
  cases hrun : p s with
  | ok a s' =>
    rw [hrun] at hfirst
    exact Nat.le_trans hfirst (hf a s')
  | error e s' =>
    rw [hrun] at hfirst
    exact hfirst

theorem advancing_map {p : Parser α} (f : α → β) (hp : Advancing p) : Advancing (f <$> p) := by
  intro s
  have hfirst := hp s
  change s.nextId ≤ (leave (EStateM.map f p s)).nextId
  unfold EStateM.map
  cases hrun : p s with
  | ok a s' =>
    rw [hrun] at hfirst
    exact hfirst
  | error e s' =>
    rw [hrun] at hfirst
    exact hfirst

theorem advancing_peek : Advancing peek := fun _ => Nat.le_refl _

theorem advancing_advance : Advancing advance := by
  intro s
  unfold advance
  split <;> exact Nat.le_refl _

theorem advancing_fail (cause : GrammarCause) : Advancing (fail cause : Parser α) :=
  fun _ => Nat.le_refl _

theorem advancing_outOfFuel : Advancing (outOfFuel : Parser α) := fun _ => Nat.le_refl _

theorem advancing_record (cause : GrammarCause) (token : Token) :
    Advancing (record cause token) := fun _ => Nat.le_refl _

theorem advancing_occurrence (token : Token) : Advancing (occurrence token) :=
  fun _ => Nat.le_succ _

theorem advancing_acceptAny (kinds : List TokenKind) : Advancing (acceptAny kinds) := by
  refine advancing_bind advancing_peek fun t => ?_
  split
  · exact advancing_bind advancing_advance fun _ => advancing_pure _
  · exact advancing_pure _

theorem advancing_accept (kind : TokenKind) : Advancing (accept kind) :=
  advancing_acceptAny [kind]

theorem advancing_expect (kind : TokenKind) (cause : GrammarCause) :
    Advancing (expect kind cause) := by
  refine advancing_bind (advancing_accept kind) fun found => ?_
  cases found with
  | some t => exact advancing_pure t
  | none => exact advancing_fail cause

theorem advancing_expectMark (mark : TokenKind) (place : Place) :
    Advancing (expectMark mark place) :=
  advancing_bind (advancing_expect _ _) fun _ => advancing_pure _

theorem advancing_expectName (role : NameRole) : Advancing (expectName role) :=
  advancing_expect _ _

theorem advancing_checkLength (list : LimitedList) (count : Nat) :
    Advancing (checkLength list count) := by
  unfold checkLength
  split
  · exact advancing_bind advancing_peek fun t => advancing_record _ t
  · exact advancing_pure _

theorem advancing_recovering {p : Parser α} (hp : Advancing p) : Advancing (recovering p) := by
  intro s
  have hinner := hp s
  unfold recovering
  split
  · rename_i hrun
    rw [hrun] at hinner
    exact hinner
  · rename_i hrun
    rw [hrun] at hinner
    exact hinner
  · rename_i hrun
    rw [hrun] at hinner
    exact hinner

/-! ### Expressions -/

theorem advancing_assignTo (target : Expr) (equals : Token) (value : Expr) :
    Advancing (assignTo target equals value) := by
  unfold assignTo
  split
  · exact advancing_bind (advancing_occurrence _) fun _ => advancing_pure _
  · exact advancing_pure _
  · exact advancing_bind (advancing_record _ _) fun _ => advancing_pure _

/-- No function of a recursion bounded by `fuel` hands out an identity again. -/
structure ExprAdvancing (fuel : Nat) : Prop where
  expression : Advancing (expression fuel)
  operation (levels : List Level) : Advancing (operation fuel levels)
  operationTail (level : Level) (tighter : List Level) (left : Expr) :
    Advancing (operationTail fuel level tighter left)
  unary : Advancing (unary fuel)
  callTail (callee : Expr) : Advancing (callTail fuel callee)
  argumentList (count : Nat) : Advancing (argumentList fuel count)
  primary : Advancing (primary fuel)

variable {fuel : Nat}

theorem advancing_callTail (ih : ExprAdvancing fuel) (callee : Expr) :
    Advancing (callTail (fuel + 1) callee) := by
  unfold callTail
  refine advancing_bind advancing_peek fun t => ?_
  split
  · refine advancing_bind advancing_advance fun _ => advancing_bind advancing_peek fun t => ?_
    have hfinish : ∀ arguments, Advancing (do
        let paren ← expect .rightParen (.noMark .rightParen .afterArguments)
        callTail fuel (.call callee paren arguments)) :=
      fun arguments => advancing_bind (advancing_expect _ _) fun _ => ih.callTail _
    split
    · exact advancing_bind (advancing_pure _) hfinish
    · exact advancing_bind (ih.argumentList 0) hfinish
  · refine advancing_bind advancing_advance fun _ => ?_
    exact advancing_bind (advancing_expectName _) fun _ => ih.callTail _
  · exact advancing_pure _

theorem advancing_primary (ih : ExprAdvancing fuel) : Advancing (primary (fuel + 1)) := by
  unfold primary
  refine advancing_bind advancing_peek fun t => ?_
  split
  · exact advancing_bind advancing_advance fun _ => advancing_pure _
  · refine advancing_bind advancing_advance fun _ => ?_
    exact advancing_bind (advancing_occurrence _) fun _ => advancing_pure _
  · refine advancing_bind advancing_advance fun _ => ?_
    refine advancing_bind (advancing_expectMark _ _) fun _ => ?_
    refine advancing_bind (advancing_expectName _) fun _ => ?_
    exact advancing_bind (advancing_occurrence _) fun _ => advancing_pure _
  · refine advancing_bind advancing_advance fun _ => ?_
    exact advancing_bind (advancing_occurrence _) fun _ => advancing_pure _
  · refine advancing_bind advancing_advance fun _ => ?_
    refine advancing_bind ih.expression fun _ => ?_
    exact advancing_bind (advancing_expectMark _ _) fun _ => advancing_pure _
  · exact advancing_fail _

theorem exprAdvancing : ∀ fuel, ExprAdvancing fuel := by
  intro fuel
  induction fuel with
  | zero =>
    exact {
      expression := advancing_outOfFuel
      operation := fun _ => advancing_outOfFuel
      operationTail := fun _ _ _ => advancing_outOfFuel
      unary := advancing_outOfFuel
      callTail := fun _ => advancing_outOfFuel
      argumentList := fun _ => advancing_outOfFuel
      primary := advancing_outOfFuel }
  | succ fuel ih =>
    exact {
      expression := by
        refine advancing_bind (ih.operation _) fun target => ?_
        refine advancing_bind (advancing_accept _) fun found => ?_
        cases found with
        | none => exact advancing_pure _
        | some equals =>
          exact advancing_bind ih.expression fun _ => advancing_assignTo _ _ _
      operation := by
        intro levels
        cases levels with
        | nil => exact ih.unary
        | cons level tighter =>
          exact advancing_bind (ih.operation _) fun _ => ih.operationTail _ _ _
      operationTail := by
        intro level tighter left
        refine advancing_bind (advancing_acceptAny _) fun found => ?_
        cases found with
        | none => exact advancing_pure _
        | some operator =>
          exact advancing_bind (ih.operation _) fun _ => ih.operationTail _ _ _
      unary := by
        refine advancing_bind (advancing_acceptAny _) fun found => ?_
        cases found with
        | some operator => exact advancing_bind ih.unary fun _ => advancing_pure _
        | none => exact advancing_bind ih.primary fun _ => ih.callTail _
      callTail := advancing_callTail ih
      argumentList := by
        intro count
        refine advancing_bind (advancing_checkLength _ _) fun _ => ?_
        refine advancing_bind ih.expression fun _ => ?_
        refine advancing_bind (advancing_accept _) fun found => ?_
        cases found with
        | none => exact advancing_pure _
        | some comma => exact advancing_bind (ih.argumentList _) fun _ => advancing_pure _
      primary := advancing_primary ih }

/-! ### Statements -/

theorem advancing_parameterList : ∀ fuel count, Advancing (parameterList fuel count) := by
  intro fuel
  induction fuel with
  | zero => exact fun _ => advancing_outOfFuel
  | succ fuel ih =>
    intro count
    refine advancing_bind (advancing_checkLength _ _) fun _ => ?_
    refine advancing_bind (advancing_expectName _) fun _ => ?_
    refine advancing_bind (advancing_accept _) fun found => ?_
    cases found with
    | none => exact advancing_pure _
    | some comma => exact advancing_bind (ih _) fun _ => advancing_pure _

theorem advancing_optionalExpression (fuel : Nat) (ending : TokenKind) :
    Advancing (optionalExpression fuel ending) := by
  refine advancing_bind advancing_peek fun t => ?_
  split
  · exact advancing_pure _
  · exact advancing_bind (exprAdvancing fuel).expression fun _ => advancing_pure _

theorem advancing_expressionStatement (fuel : Nat) : Advancing (expressionStatement fuel) := by
  refine advancing_bind (exprAdvancing fuel).expression fun _ => ?_
  exact advancing_bind (advancing_expectMark _ _) fun _ => advancing_pure _

theorem advancing_varDeclaration (fuel : Nat) : Advancing (varDeclaration fuel) := by
  refine advancing_bind (advancing_expectName _) fun name => ?_
  refine advancing_bind (advancing_accept _) fun found => ?_
  have hfinish : ∀ initializer, Advancing (do
      expectMark .semicolon .afterVariable
      return Stmt.var name initializer) :=
    fun initializer => advancing_bind (advancing_expectMark _ _) fun _ => advancing_pure _
  cases found with
  | some equals => exact advancing_bind (advancing_map _ (exprAdvancing fuel).expression) hfinish
  | none => exact advancing_bind (advancing_pure _) hfinish

theorem advancing_forInitializer (fuel : Nat) : Advancing (forInitializer fuel) := by
  refine advancing_bind advancing_peek fun t => ?_
  split
  · exact advancing_bind advancing_advance fun _ => advancing_pure _
  · exact advancing_bind advancing_advance fun _ => advancing_map _ (advancing_varDeclaration fuel)
  · exact advancing_map _ (advancing_expressionStatement fuel)

structure StmtAdvancing (fuel : Nat) : Prop where
  declaration : Advancing (declaration fuel)
  declarations (endings : List TokenKind) : Advancing (declarations fuel endings)
  block : Advancing (block fuel)
  routine (kind : Routine) : Advancing (routine fuel kind)
  methods : Advancing (methods fuel)
  classDeclaration : Advancing (classDeclaration fuel)
  statement : Advancing (statement fuel)

theorem advancing_declaration (ih : StmtAdvancing fuel) : Advancing (declaration (fuel + 1)) := by
  refine advancing_recovering (advancing_bind advancing_peek fun t => ?_)
  split
  · exact advancing_bind advancing_advance fun _ => ih.classDeclaration
  · refine advancing_bind advancing_advance fun _ => ?_
    exact advancing_bind (ih.routine _) fun _ => advancing_pure _
  · exact advancing_bind advancing_advance fun _ => advancing_varDeclaration fuel
  · exact ih.statement

theorem advancing_routine (ih : StmtAdvancing fuel) (kind : Routine) :
    Advancing (routine (fuel + 1) kind) := by
  refine advancing_bind (advancing_expectName _) fun name => ?_
  refine advancing_bind (advancing_expectMark _ _) fun _ => ?_
  refine advancing_bind advancing_peek fun t => ?_
  have hfinish : ∀ parameters, Advancing (do
      expectMark .rightParen .afterParameters
      expectMark .leftBrace (.beforeRoutineBody kind)
      let body ← block fuel
      return (⟨name, parameters, body⟩ : FunctionDecl)) := by
    intro parameters
    refine advancing_bind (advancing_expectMark _ _) fun _ => ?_
    refine advancing_bind (advancing_expectMark _ _) fun _ => ?_
    exact advancing_bind ih.block fun _ => advancing_pure _
  split
  · exact advancing_bind (advancing_pure _) hfinish
  · exact advancing_bind (advancing_parameterList fuel 0) hfinish

theorem advancing_classDeclaration (ih : StmtAdvancing fuel) :
    Advancing (classDeclaration (fuel + 1)) := by
  refine advancing_bind (advancing_expectName _) fun name => ?_
  refine advancing_bind (advancing_accept _) fun found => ?_
  have hfinish : ∀ superclass, Advancing (do
      expectMark .leftBrace .beforeClassBody
      let body ← methods fuel
      expectMark .rightBrace .afterClassBody
      return Stmt.class name superclass body) := by
    intro superclass
    refine advancing_bind (advancing_expectMark _ _) fun _ => ?_
    refine advancing_bind ih.methods fun _ => ?_
    exact advancing_bind (advancing_expectMark _ _) fun _ => advancing_pure _
  cases found with
  | some less =>
    have hparent := advancing_bind (advancing_expectName .superclassName) advancing_occurrence
    exact advancing_bind (advancing_map _ hparent) hfinish
  | none => exact advancing_bind (advancing_pure _) hfinish

theorem advancing_statement (ih : StmtAdvancing fuel) : Advancing (statement (fuel + 1)) := by
  refine advancing_bind advancing_peek fun t => ?_
  split
  · -- `for`
    refine advancing_bind advancing_advance fun _ => ?_
    refine advancing_bind (advancing_expectMark _ _) fun _ => ?_
    refine advancing_bind (advancing_forInitializer fuel) fun _ => ?_
    refine advancing_bind (advancing_optionalExpression fuel _) fun _ => ?_
    refine advancing_bind (advancing_expectMark _ _) fun _ => ?_
    refine advancing_bind (advancing_optionalExpression fuel _) fun _ => ?_
    refine advancing_bind (advancing_expectMark _ _) fun _ => ?_
    exact advancing_bind ih.statement fun _ => advancing_pure _
  · -- `if`
    refine advancing_bind advancing_advance fun _ => ?_
    refine advancing_bind (advancing_expectMark _ _) fun _ => ?_
    refine advancing_bind (exprAdvancing fuel).expression fun _ => ?_
    refine advancing_bind (advancing_expectMark _ _) fun _ => ?_
    refine advancing_bind ih.statement fun _ => ?_
    refine advancing_bind (advancing_accept _) fun found => ?_
    cases found with
    | some kwElse => exact advancing_bind ih.statement fun _ => advancing_pure _
    | none => exact advancing_pure _
  · -- `while`
    refine advancing_bind advancing_advance fun _ => ?_
    refine advancing_bind (advancing_expectMark _ _) fun _ => ?_
    refine advancing_bind (exprAdvancing fuel).expression fun _ => ?_
    refine advancing_bind (advancing_expectMark _ _) fun _ => ?_
    exact advancing_bind ih.statement fun _ => advancing_pure _
  · -- `return`
    refine advancing_bind advancing_advance fun _ => ?_
    refine advancing_bind (advancing_optionalExpression fuel _) fun _ => ?_
    exact advancing_bind (advancing_expectMark _ _) fun _ => advancing_pure _
  · -- `break`
    refine advancing_bind advancing_advance fun _ => ?_
    exact advancing_bind (advancing_expectMark _ _) fun _ => advancing_pure _
  · -- `continue`
    refine advancing_bind advancing_advance fun _ => ?_
    exact advancing_bind (advancing_expectMark _ _) fun _ => advancing_pure _
  · -- A block.
    refine advancing_bind advancing_advance fun _ => ?_
    exact advancing_bind ih.block fun _ => advancing_pure _
  · -- An expression statement.
    exact advancing_expressionStatement fuel

theorem stmtAdvancing : ∀ fuel, StmtAdvancing fuel := by
  intro fuel
  induction fuel with
  | zero =>
    exact {
      declaration := advancing_outOfFuel
      declarations := fun _ => advancing_outOfFuel
      block := advancing_outOfFuel
      routine := fun _ => advancing_outOfFuel
      methods := advancing_outOfFuel
      classDeclaration := advancing_outOfFuel
      statement := advancing_outOfFuel }
  | succ fuel ih =>
    exact {
      declaration := advancing_declaration ih
      declarations := by
        intro endings
        refine advancing_bind advancing_peek fun t => ?_
        split
        · exact advancing_pure _
        · refine advancing_bind ih.declaration fun found => ?_
          cases found with
          | some first => exact advancing_bind (ih.declarations _) fun _ => advancing_pure _
          | none => exact ih.declarations _
      block := by
        refine advancing_bind (ih.declarations _) fun _ => ?_
        exact advancing_bind (advancing_expectMark _ _) fun _ => advancing_pure _
      routine := advancing_routine ih
      methods := by
        refine advancing_bind advancing_peek fun t => ?_
        split
        · exact advancing_pure _
        · refine advancing_bind (ih.routine _) fun _ => ?_
          exact advancing_bind ih.methods fun _ => advancing_pure _
      classDeclaration := advancing_classDeclaration ih
      statement := advancing_statement ih }

/-- A parse, successful or not, does not hand out identities again. -/
theorem le_parse (tokens : List Token) (n : Nat) : n ≤ (parse tokens n).2 := by
  have hrun := (stmtAdvancing (enoughFuel tokens)).declarations [.eof] ⟨tokens, [], n⟩
  unfold parse
  cases hparse : declarations (enoughFuel tokens) [.eof] ⟨tokens, [], n⟩ with
  | ok program s =>
    rw [hparse] at hrun
    exact hrun
  | error e s =>
    rw [hparse] at hrun
    exact hrun

end Lox.Parser
