import Lox.Proofs.Parser.Ending

/-!
# What the parser does without its bound

The bound on the depth of the recursion only decides whether a result is seen, and not
what it is: with a greater bound the parser gives the same result, unless it had reached
the smaller one.  So a parser settles on a result when the bound is great enough, and on
one only.  The bound that `parse` gives is great enough for all tokens.
-/

namespace Lox.Parser

variable {α β : Type}

/-! ### Greater bounds -/

/-- The second parser gives the result of the first, unless that one reaches its bound. -/
def Deeper (p q : Parser α) : Prop :=
  ∀ s, (∃ s', p s = .error .outOfFuel s') ∨ q s = p s

namespace Deeper

variable {p q r : Parser α} {s s' : State}

theorem refl (p : Parser α) : Deeper p p := fun _ => .inr rfl

theorem trans (h : Deeper p q) (h' : Deeper q r) : Deeper p r := by
  intro s
  rcases h s with hout | heq
  · exact .inl hout
  · rcases h' s with ⟨s', hout⟩ | heq'
    · exact .inl ⟨s', heq ▸ hout⟩
    · exact .inr (heq'.trans heq)

theorem bind {f g : α → Parser β} (hp : Deeper p q) (hf : ∀ a, Deeper (f a) (g a)) :
    Deeper (p >>= f) (q >>= g) := by
  intro s
  change (∃ s', EStateM.bind p f s = .error .outOfFuel s') ∨
    EStateM.bind q g s = EStateM.bind p f s
  unfold EStateM.bind
  rcases hp s with ⟨s', hout⟩ | heq
  · exact .inl ⟨s', by rw [hout]⟩
  · rw [heq]
    cases p s with
    | ok a s₁ => exact hf a s₁
    | error e s₁ => exact .inr rfl

theorem map (f : α → β) (hp : Deeper p q) : Deeper (f <$> p) (f <$> q) := by
  rw [← bind_pure_comp f p, ← bind_pure_comp f q]
  exact hp.bind fun a => .refl (pure (f a))

theorem recovering (hp : Deeper p q) : Deeper (recovering p) (recovering q) := by
  intro s
  unfold Parser.recovering
  rcases hp s with ⟨s', hout⟩ | heq
  · exact .inl ⟨s', by rw [hout]⟩
  · exact .inr (by rw [heq])

theorem outOfFuel (p : Parser α) : Deeper Parser.outOfFuel p := fun s => .inl ⟨s, rfl⟩

theorem of_le {p : Nat → Parser α} (hp : ∀ fuel, Deeper (p fuel) (p (fuel + 1)))
    {fuel fuel' : Nat} (h : fuel ≤ fuel') : Deeper (p fuel) (p fuel') := by
  induction h with
  | refl => exact .refl _
  | @step k _ ih => exact ih.trans (hp k)

theorem eq_of_ok (h : Deeper p q) {a : α} (hp : p s = .ok a s') : q s = .ok a s' := by
  rcases h s with ⟨s₁, hout⟩ | heq
  · rw [hp] at hout
    cases hout
  · exact heq.trans hp

end Deeper

/-- The functions for expressions, with this bound and with the next one. -/
structure ExprDeeper (fuel : Nat) : Prop where
  expression : Deeper (expression fuel) (expression (fuel + 1))
  operation : ∀ levels, Deeper (operation fuel levels) (operation (fuel + 1) levels)
  operationTail : ∀ level tighter left,
    Deeper (operationTail fuel level tighter left) (operationTail (fuel + 1) level tighter left)
  unary : Deeper (unary fuel) (unary (fuel + 1))
  callTail : ∀ callee, Deeper (callTail fuel callee) (callTail (fuel + 1) callee)
  argumentList : ∀ count, Deeper (argumentList fuel count) (argumentList (fuel + 1) count)
  primary : Deeper (primary fuel) (primary (fuel + 1))

namespace ExprDeeper

variable {fuel : Nat}

theorem zero : ExprDeeper 0 := by
  constructor
  all_goals
    intros
    exact .outOfFuel _

theorem expression_succ (ih : ExprDeeper fuel) :
    Deeper (Parser.expression (fuel + 1)) (Parser.expression (fuel + 1 + 1)) := by
  refine (ih.operation Level.all).bind fun target => (Deeper.refl _).bind fun found => ?_
  cases found with
  | none => exact .refl _
  | some equals => exact ih.expression.bind fun value => .refl _

theorem operation_succ (ih : ExprDeeper fuel) (levels : List Level) :
    Deeper (Parser.operation (fuel + 1) levels) (Parser.operation (fuel + 1 + 1) levels) := by
  cases levels with
  | nil => exact ih.unary
  | cons level tighter =>
    exact (ih.operation tighter).bind fun left => ih.operationTail level tighter left

theorem operationTail_succ (ih : ExprDeeper fuel) (level : Level) (tighter : List Level)
    (left : Expr) : Deeper (Parser.operationTail (fuel + 1) level tighter left)
      (Parser.operationTail (fuel + 1 + 1) level tighter left) := by
  refine (Deeper.refl _).bind fun found => ?_
  cases found with
  | none => exact .refl _
  | some operator =>
    exact (ih.operation tighter).bind fun right => ih.operationTail level tighter _

theorem unary_succ (ih : ExprDeeper fuel) :
    Deeper (Parser.unary (fuel + 1)) (Parser.unary (fuel + 1 + 1)) := by
  refine (Deeper.refl _).bind fun found => ?_
  cases found with
  | none => exact ih.primary.bind fun callee => ih.callTail callee
  | some operator => exact ih.unary.bind fun operand => .refl _

theorem callTail_succ (ih : ExprDeeper fuel) (callee : Expr) :
    Deeper (Parser.callTail (fuel + 1) callee) (Parser.callTail (fuel + 1 + 1) callee) := by
  unfold Parser.callTail
  refine (Deeper.refl _).bind fun token => ?_
  split
  · refine (Deeper.refl _).bind fun _ => (Deeper.refl _).bind fun token => ?_
    have hfinish : ∀ arguments, Deeper
        (do let paren ← expect .rightParen (.noMark .rightParen .afterArguments)
            Parser.callTail fuel (.call callee paren arguments))
        (do let paren ← expect .rightParen (.noMark .rightParen .afterArguments)
            Parser.callTail (fuel + 1) (.call callee paren arguments)) :=
      fun arguments => (Deeper.refl _).bind fun paren => ih.callTail _
    split
    · exact (Deeper.refl _).bind hfinish
    · exact (ih.argumentList 0).bind hfinish
  · refine (Deeper.refl _).bind fun _ => (Deeper.refl _).bind fun name => ih.callTail _
  · exact .refl _

theorem argumentList_succ (ih : ExprDeeper fuel) (count : Nat) :
    Deeper (Parser.argumentList (fuel + 1) count) (Parser.argumentList (fuel + 1 + 1) count) := by
  refine (Deeper.refl _).bind fun _ => ih.expression.bind fun argument => ?_
  refine (Deeper.refl _).bind fun found => ?_
  cases found with
  | none => exact .refl _
  | some comma => exact (ih.argumentList (count + 1)).bind fun arguments => .refl _

theorem primary_succ (ih : ExprDeeper fuel) :
    Deeper (Parser.primary (fuel + 1)) (Parser.primary (fuel + 1 + 1)) := by
  unfold Parser.primary
  refine (Deeper.refl _).bind fun token => ?_
  -- Only what stands in parentheses is read by a function with a bound.
  split
  case h_5 =>
    exact (Deeper.refl _).bind fun _ => ih.expression.bind fun inner => .refl _
  all_goals exact .refl _

end ExprDeeper

theorem exprDeeper (fuel : Nat) : ExprDeeper fuel := by
  induction fuel with
  | zero => exact .zero
  | succ fuel ih =>
    exact ⟨ih.expression_succ, ih.operation_succ, ih.operationTail_succ, ih.unary_succ,
      ih.callTail_succ, ih.argumentList_succ, ih.primary_succ⟩

/-! ### Statements -/

theorem parameterList_deeper (fuel count : Nat) :
    Deeper (parameterList fuel count) (parameterList (fuel + 1) count) := by
  induction fuel generalizing count with
  | zero => exact .outOfFuel _
  | succ fuel ih =>
    refine (Deeper.refl _).bind fun _ => (Deeper.refl _).bind fun parameter => ?_
    refine (Deeper.refl _).bind fun found => ?_
    cases found with
    | none => exact .refl _
    | some comma => exact (ih (count + 1)).bind fun parameters => .refl _

theorem optionalExpression_deeper (fuel : Nat) (ending : TokenKind) :
    Deeper (optionalExpression fuel ending) (optionalExpression (fuel + 1) ending) := by
  refine (Deeper.refl _).bind fun token => ?_
  split
  · exact .refl _
  · exact (exprDeeper fuel).expression.bind fun value => .refl _

theorem expressionStatement_deeper (fuel : Nat) :
    Deeper (expressionStatement fuel) (expressionStatement (fuel + 1)) :=
  (exprDeeper fuel).expression.bind fun _ => .refl _

theorem varDeclaration_deeper (fuel : Nat) :
    Deeper (varDeclaration fuel) (varDeclaration (fuel + 1)) := by
  refine (Deeper.refl _).bind fun name => (Deeper.refl _).bind fun found => ?_
  cases found with
  | none => exact .refl _
  | some equals => exact ((exprDeeper fuel).expression.map some).bind fun initializer => .refl _

theorem forInitializer_deeper (fuel : Nat) :
    Deeper (forInitializer fuel) (forInitializer (fuel + 1)) := by
  unfold forInitializer
  refine (Deeper.refl _).bind fun token => ?_
  split
  · exact .refl _
  · exact (Deeper.refl _).bind fun _ => (varDeclaration_deeper fuel).map some
  · exact (expressionStatement_deeper fuel).map some

structure StmtDeeper (fuel : Nat) : Prop where
  declaration : Deeper (declaration fuel) (declaration (fuel + 1))
  declarations : ∀ endings, Deeper (declarations fuel endings) (declarations (fuel + 1) endings)
  block : Deeper (block fuel) (block (fuel + 1))
  routine : ∀ kind, Deeper (routine fuel kind) (routine (fuel + 1) kind)
  methods : Deeper (methods fuel) (methods (fuel + 1))
  classDeclaration : Deeper (classDeclaration fuel) (classDeclaration (fuel + 1))
  statement : Deeper (statement fuel) (statement (fuel + 1))

namespace StmtDeeper

variable {fuel : Nat}

theorem zero : StmtDeeper 0 := by
  constructor
  all_goals
    intros
    exact .outOfFuel _

theorem declaration_succ (ih : StmtDeeper fuel) :
    Deeper (Parser.declaration (fuel + 1)) (Parser.declaration (fuel + 1 + 1)) := by
  unfold Parser.declaration
  refine Deeper.recovering ((Deeper.refl _).bind fun token => ?_)
  split
  · exact (Deeper.refl _).bind fun _ => ih.classDeclaration
  · exact (Deeper.refl _).bind fun _ => (ih.routine .function).bind fun d => .refl _
  · exact (Deeper.refl _).bind fun _ => varDeclaration_deeper fuel
  · exact ih.statement

theorem declarations_succ (ih : StmtDeeper fuel) (endings : List TokenKind) :
    Deeper (Parser.declarations (fuel + 1) endings)
      (Parser.declarations (fuel + 1 + 1) endings) := by
  unfold Parser.declarations
  refine (Deeper.refl _).bind fun token => ?_
  split
  · exact .refl _
  · refine ih.declaration.bind fun found => ?_
    cases found with
    | some first => exact (ih.declarations endings).bind fun rest => .refl _
    | none => exact ih.declarations endings

theorem block_succ (ih : StmtDeeper fuel) :
    Deeper (Parser.block (fuel + 1)) (Parser.block (fuel + 1 + 1)) :=
  (ih.declarations _).bind fun _ => .refl _

theorem routine_succ (ih : StmtDeeper fuel) (kind : Routine) :
    Deeper (Parser.routine (fuel + 1) kind) (Parser.routine (fuel + 1 + 1) kind) := by
  unfold Parser.routine
  refine (Deeper.refl _).bind fun name => (Deeper.refl _).bind fun _ => ?_
  refine (Deeper.refl _).bind fun token => ?_
  have hfinish : ∀ parameters, Deeper
      (do expectMark .rightParen .afterParameters
          expectMark .leftBrace (.beforeRoutineBody kind)
          let body ← Parser.block fuel
          return (⟨name, parameters, body⟩ : FunctionDecl))
      (do expectMark .rightParen .afterParameters
          expectMark .leftBrace (.beforeRoutineBody kind)
          let body ← Parser.block (fuel + 1)
          return (⟨name, parameters, body⟩ : FunctionDecl)) :=
    fun parameters => (Deeper.refl _).bind fun _ => (Deeper.refl _).bind fun _ =>
      ih.block.bind fun body => .refl _
  split
  · exact (Deeper.refl _).bind hfinish
  · exact (parameterList_deeper fuel 0).bind hfinish

theorem methods_succ (ih : StmtDeeper fuel) :
    Deeper (Parser.methods (fuel + 1)) (Parser.methods (fuel + 1 + 1)) := by
  unfold Parser.methods
  refine (Deeper.refl _).bind fun token => ?_
  split
  · exact .refl _
  · exact (ih.routine .method).bind fun first => ih.methods.bind fun rest => .refl _

theorem classDeclaration_succ (ih : StmtDeeper fuel) :
    Deeper (Parser.classDeclaration (fuel + 1)) (Parser.classDeclaration (fuel + 1 + 1)) := by
  unfold Parser.classDeclaration
  refine (Deeper.refl _).bind fun name => (Deeper.refl _).bind fun found => ?_
  have hfinish : ∀ superclass, Deeper
      (do expectMark .leftBrace .beforeClassBody
          let body ← Parser.methods fuel
          expectMark .rightBrace .afterClassBody
          return Stmt.class name superclass body)
      (do expectMark .leftBrace .beforeClassBody
          let body ← Parser.methods (fuel + 1)
          expectMark .rightBrace .afterClassBody
          return Stmt.class name superclass body) :=
    fun superclass => (Deeper.refl _).bind fun _ => ih.methods.bind fun body => .refl _
  cases found with
  | none => exact (Deeper.refl _).bind hfinish
  | some less => exact (Deeper.refl _).bind hfinish

theorem statement_succ (ih : StmtDeeper fuel) :
    Deeper (Parser.statement (fuel + 1)) (Parser.statement (fuel + 1 + 1)) := by
  have hexpression := (exprDeeper fuel).expression
  unfold Parser.statement
  refine (Deeper.refl _).bind fun token => ?_
  split
  · refine (Deeper.refl _).bind fun _ => (Deeper.refl _).bind fun _ => ?_
    refine (forInitializer_deeper fuel).bind fun initializer => ?_
    refine (optionalExpression_deeper fuel _).bind fun condition => (Deeper.refl _).bind fun _ => ?_
    refine (optionalExpression_deeper fuel _).bind fun increment => (Deeper.refl _).bind fun _ => ?_
    exact ih.statement.bind fun body => .refl _
  · refine (Deeper.refl _).bind fun _ => (Deeper.refl _).bind fun _ => ?_
    refine hexpression.bind fun condition => (Deeper.refl _).bind fun _ => ?_
    refine ih.statement.bind fun thenBranch => (Deeper.refl _).bind fun found => ?_
    cases found with
    | none => exact .refl _
    | some kwElse => exact ih.statement.bind fun elseBranch => .refl _
  · refine (Deeper.refl _).bind fun _ => (Deeper.refl _).bind fun _ => ?_
    refine hexpression.bind fun condition => (Deeper.refl _).bind fun _ => ?_
    exact ih.statement.bind fun body => .refl _
  · exact (Deeper.refl _).bind fun _ => (optionalExpression_deeper fuel _).bind fun value => .refl _
  · exact .refl _
  · exact .refl _
  · exact (Deeper.refl _).bind fun _ => ih.block.bind fun body => .refl _
  · exact expressionStatement_deeper fuel

end StmtDeeper

theorem stmtDeeper (fuel : Nat) : StmtDeeper fuel := by
  induction fuel with
  | zero => exact .zero
  | succ fuel ih =>
    exact ⟨ih.declaration_succ, ih.declarations_succ, ih.block_succ, ih.routine_succ,
      ih.methods_succ, ih.classDeclaration_succ, ih.statement_succ⟩

/-! ### Settling -/

/-- With every bound that is great enough, the parser gives the result. -/
def Settles (p : Nat → Parser α) (s : State) (result : EStateM.Result Stop State α) : Prop :=
  ∃ enough, ∀ fuel, enough ≤ fuel → p fuel s = result

namespace Settles

variable {p q : Nat → Parser α} {s s' : State} {a : α} {result : EStateM.Result Stop State α}

/-- A parser without a bound settles on what it does. -/
theorem const {p : Parser α} (h : p s = result) : Settles (fun _ => p) s result :=
  ⟨0, fun _ _ => h⟩

theorem bind {f : Nat → α → Parser β} {result : EStateM.Result Stop State β}
    (hp : Settles p s (.ok a s')) (hf : Settles (fun fuel => f fuel a) s' result) :
    Settles (fun fuel => p fuel >>= f fuel) s result := by
  obtain ⟨enough, hp⟩ := hp
  obtain ⟨enough', hf⟩ := hf
  refine ⟨max enough enough', fun fuel hfuel => ?_⟩
  exact (bind_of_ok (hp fuel (by omega))).trans (hf fuel (by omega))

theorem map {f : α → β} (hp : Settles p s (.ok a s')) :
    Settles (fun fuel => f <$> p fuel) s (.ok (f a) s') := by
  obtain ⟨enough, hp⟩ := hp
  exact ⟨enough, fun fuel hfuel => map_of_ok (hp fuel hfuel)⟩

/-- A result that a greater bound does not change is what the parser settles on. -/
theorem of_ok (hp : ∀ fuel, Deeper (p fuel) (p (fuel + 1))) {fuel : Nat}
    (h : p fuel s = .ok a s') : Settles p s (.ok a s') :=
  ⟨fuel, fun _ hfuel => (Deeper.of_le hp hfuel).eq_of_ok h⟩

/-- One call more does not matter. -/
theorem succ (hp : Settles p s result) (h : ∀ fuel, q (fuel + 1) s = p fuel s) :
    Settles q s result := by
  obtain ⟨enough, hp⟩ := hp
  refine ⟨enough + 1, fun fuel hfuel => ?_⟩
  obtain ⟨fuel, rfl⟩ : ∃ k, fuel = k + 1 := ⟨fuel - 1, by omega⟩
  rw [h, hp fuel (by omega)]

theorem unique {result' : EStateM.Result Stop State α} (h : Settles p s result)
    (h' : Settles p s result') : result = result' := by
  obtain ⟨enough, h⟩ := h
  obtain ⟨enough', h'⟩ := h'
  rw [← h (max enough enough') (by omega), h' (max enough enough') (by omega)]

end Settles

/-- The declarations up to the end of input settle with the bound that `parse` gives. -/
theorem exists_declarations_settle (tokens : List Token) (nextId : NodeId) :
    ∃ program s, ∀ fuel, enoughFuel tokens ≤ fuel →
      declarations fuel [.eof] ⟨tokens, [], nextId⟩ = .ok program s := by
  have heof : TokenKind.eof ∈ [TokenKind.eof] := List.mem_singleton_self _
  have hfuel : 32 * (State.mk tokens [] nextId).rest.length + 13 ≤ enoughFuel tokens := by
    simp only [enoughFuel]
    omega
  obtain ⟨program, s, hrun⟩ := exists_declarations heof hfuel
  refine ⟨program, s, fun fuel hle => ?_⟩
  exact (Deeper.of_le (fun fuel => (stmtDeeper fuel).declarations [.eof]) hle).eq_of_ok hrun

/-- A parse gives what the declarations up to the end of input settle on. -/
theorem parse_of_settles {tokens : List Token} {nextId : NodeId} {program : List Stmt} {s : State}
    (h : Settles (fun fuel => declarations fuel [.eof]) ⟨tokens, [], nextId⟩ (.ok program s)) :
    parse tokens nextId =
      (if s.errors.isEmpty then .ok program else .error s.errors, s.nextId) := by
  obtain ⟨program', s', hrun⟩ := exists_declarations_settle tokens nextId
  have hsame : EStateM.Result.ok program' s' = .ok program s :=
    Settles.unique ⟨enoughFuel tokens, hrun⟩ h
  cases hsame
  rw [parse, hrun _ (Nat.le_refl _)]

end Lox.Parser
