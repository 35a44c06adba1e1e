import Lox.Parser.Statement
import Lox.Proofs.Parser.ExpressionSound

/-!
# What the parser reads as a statement follows the grammar

The counterpart for statements and declarations.  The parser gives every `else`
to the nearest `if` without one: when a statement has been read whose end could
take an `else`, none is ahead.
-/

namespace Lox.Parser

open Lox.Grammar

/-! ### Parts of statements -/

theorem parameterList_sound (fuel count : Nat) (s : State) :
    Ensures (parameterList fuel count) s fun names s' =>
      Took (fun w => Parameters names w ∧ count + names.length ≤ longestList) s s' := by
  induction fuel generalizing count s with
  | zero => exact ensures_outOfFuel
  | succ fuel ih =>
    unfold parameterList
    refine Ensures.bind ensures_checkLength fun _ s₁ hlength => ?_
    refine Ensures.bind ensures_expectName fun name s₂ hname => ?_
    refine Ensures.bind (ensures_accept (by decide)) fun found s₃ hfound => ?_
    rcases hfound with ⟨comma, rfl, hkind, hcomma⟩ | ⟨rfl, rfl, -⟩
    · refine Ensures.bind (ih (count + 1) s₃) fun names s₄ hnames => ?_
      refine ensures_pure ((hlength.trans (hname.2.cons (hcomma.cons hnames))).imp ?_)
      rintro w ⟨_, _, rfl, ⟨rfl, -⟩, _, rfl, w', rfl, hnames, hcount⟩
      refine ⟨.more hname.1 hkind hnames, ?_⟩
      rw [List.length_cons]
      omega
    · refine ensures_pure ((hlength.trans hname.2).imp ?_)
      rintro w ⟨_, _, rfl, ⟨rfl, hcount⟩, rfl⟩
      exact ⟨.one hname.1, hcount⟩

theorem optionalExpression_sound (fuel : Nat) (ending : TokenKind) (s : State) :
    Ensures (optionalExpression fuel ending) s fun e s' => Took (OptionalExpr e) s s' := by
  unfold optionalExpression
  refine Ensures.peek_bind ?_
  split
  · exact ensures_pure (.nothing .absent)
  · refine Ensures.bind ((exprSound fuel).expression s) fun e s₁ he => ?_
    exact ensures_pure (he.imp fun w hw => .present hw)

theorem expressionStatement_sound (fuel : Nat) (s : State) :
    Ensures (expressionStatement fuel) s fun stmt s' => Took (ExprStmt stmt) s s' := by
  unfold expressionStatement
  refine Ensures.bind ((exprSound fuel).expression s) fun e s₁ he => ?_
  refine Ensures.bind (ensures_expectMark (by decide)) ?_
  rintro _ s₂ ⟨semicolon, hkind, hsemicolon⟩
  refine ensures_pure ((he.snoc hsemicolon).imp ?_)
  rintro w ⟨w', rfl, he⟩
  exact .mk he hkind

theorem varDeclaration_sound (fuel : Nat) (s : State) :
    Ensures (varDeclaration fuel) s fun stmt s' =>
      Took (fun w => ∀ keyword : Token, keyword.kind = .kwVar → VarDecl stmt (keyword :: w))
        s s' := by
  unfold varDeclaration
  refine Ensures.bind ensures_expectName fun name s₁ hname => ?_
  refine Ensures.bind (ensures_accept (by decide)) fun found s₂ hfound => ?_
  rcases hfound with ⟨equals, rfl, hequal, hequals⟩ | ⟨rfl, rfl, -⟩
  · refine Ensures.map_bind ((exprSound fuel).expression s₂) fun e s₃ he => ?_
    refine Ensures.bind (ensures_expectMark (by decide)) ?_
    rintro _ s₄ ⟨semicolon, hkind, hsemicolon⟩
    refine ensures_pure ((hname.2.cons (hequals.cons (he.snoc hsemicolon))).imp ?_)
    rintro w ⟨_, rfl, _, rfl, w', rfl, he⟩ keyword hkeyword
    exact .initialized hkeyword hname.1 hequal he hkind
  · refine Ensures.pure_bind ?_
    refine Ensures.bind (ensures_expectMark (by decide)) ?_
    rintro _ s₃ ⟨semicolon, hkind, hsemicolon⟩
    refine ensures_pure ((hname.2.cons hsemicolon).imp ?_)
    rintro w ⟨_, rfl, rfl⟩ keyword hkeyword
    exact .plain hkeyword hname.1 hkind

theorem forInitializer_sound (fuel : Nat) (s : State) :
    Ensures (forInitializer fuel) s fun initializer s' => Took (ForInit initializer) s s' := by
  unfold forInitializer
  refine Ensures.peek_bind ?_
  split
  · rename_i hkind
    refine Ensures.bind (ensures_advance (by rw [hkind]; decide)) ?_
    rintro t s₁ ⟨rfl, htoken⟩
    exact ensures_pure (htoken.imp fun w hw => hw ▸ .absent hkind)
  · rename_i hkind
    refine Ensures.bind (ensures_advance (by rw [hkind]; decide)) ?_
    rintro keyword s₁ ⟨rfl, hkeyword⟩
    refine Ensures.map (varDeclaration_sound fuel s₁) fun stmt s₂ hstmt => ?_
    refine (hkeyword.cons hstmt).imp ?_
    rintro w ⟨w', rfl, hstmt⟩
    exact .var (hstmt _ hkind)
  · exact Ensures.map (expressionStatement_sound fuel s) fun stmt s₁ hstmt =>
      hstmt.imp fun w hw => .expression hw

theorem superclassName_sound (s : State) :
    Ensures (expectName .superclassName >>= occurrence) s fun place s' =>
      place.token.kind = .identifier ∧ Took (· = [place.token]) s s' := by
  refine Ensures.bind ensures_expectName fun name s₁ hname => ?_
  refine ensures_occurrence.mono ?_
  rintro ⟨id, token⟩ s₂ ⟨rfl, hnothing⟩
  refine ⟨hname.1, (hname.2.trans hnothing).imp ?_⟩
  rintro w ⟨_, _, rfl, rfl, rfl⟩
  rfl

/-! ### The functions of the parser -/

structure StmtSound (fuel : Nat) : Prop where
  declaration (s : State) : Ensures (declaration fuel) s fun found s' =>
    Took (fun w => ∃ d, found = some d ∧ StmtDerives .nearest (.declaration d) w) s s'
  declarations (endings : List TokenKind) (s : State) :
    Ensures (declarations fuel endings) s fun ss s' =>
      Took (StmtDerives .nearest (.declarations ss)) s s' ∧ s'.ahead.kind ∈ endings
  block (s : State) : Ensures (block fuel) s fun ss s' =>
    Took (fun w => ∃ w' closing, w = w' ++ [closing] ∧ closing.kind = .rightBrace ∧
      StmtDerives .nearest (.declarations ss) w') s s'
  routine (kind : Routine) (s : State) : Ensures (routine fuel kind) s fun d s' =>
    Took (StmtDerives .nearest (.function d)) s s'
  methods (s : State) : Ensures (methods fuel) s fun ds s' =>
    Took (StmtDerives .nearest (.functions ds)) s s'
  classDeclaration (s : State) : Ensures (classDeclaration fuel) s fun d s' =>
    Took (fun w => ∀ keyword : Token, keyword.kind = .kwClass →
      StmtDerives .nearest (.declaration d) (keyword :: w)) s s'
  statement (s : State) : Ensures (statement fuel) s fun stmt s' =>
    Took (fun w => ∃ ending, StmtDerives .nearest (.statement ending stmt) w ∧
      (ending = .opened → s'.ahead.kind ≠ .kwElse)) s s'

variable {fuel : Nat}

theorem declaration_sound (ih : StmtSound fuel) (s : State) :
    Ensures (declaration (fuel + 1)) s fun found s' =>
      Took (fun w => ∃ d, found = some d ∧ StmtDerives .nearest (.declaration d) w) s s' := by
  unfold declaration
  refine ensures_recovering (Ensures.peek_bind ?_)
  split
  · rename_i hkind
    refine Ensures.bind (ensures_advance (by rw [hkind]; decide)) ?_
    rintro keyword s₁ ⟨rfl, hkeyword⟩
    refine (ih.classDeclaration s₁).mono fun d s₂ hd => (hkeyword.cons hd).imp ?_
    rintro w ⟨w', rfl, hd⟩
    exact hd _ hkind
  · rename_i hkind
    refine Ensures.bind (ensures_advance (by rw [hkind]; decide)) ?_
    rintro keyword s₁ ⟨rfl, hkeyword⟩
    refine Ensures.bind (ih.routine .function s₁) fun d s₂ hd => ?_
    refine ensures_pure ((hkeyword.cons hd).imp ?_)
    rintro w ⟨w', rfl, hd⟩
    exact .funDecl hkind hd
  · rename_i hkind
    refine Ensures.bind (ensures_advance (by rw [hkind]; decide)) ?_
    rintro keyword s₁ ⟨rfl, hkeyword⟩
    refine (varDeclaration_sound fuel s₁).mono fun d s₂ hd => (hkeyword.cons hd).imp ?_
    rintro w ⟨w', rfl, hd⟩
    exact .varDecl (hd _ hkind)
  · refine (ih.statement s).mono fun stmt s₁ hstmt => hstmt.imp ?_
    rintro w ⟨ending, hstmt, -⟩
    exact .plain hstmt

theorem declarations_sound (ih : StmtSound fuel) (endings : List TokenKind) (s : State) :
    Ensures (declarations (fuel + 1) endings) s fun ss s' =>
      Took (StmtDerives .nearest (.declarations ss)) s s' ∧ s'.ahead.kind ∈ endings := by
  unfold declarations
  refine Ensures.peek_bind ?_
  split
  · rename_i hending
    exact ensures_pure ⟨.nothing .declarationsEnd, hending⟩
  · refine Ensures.bind (ih.declaration s) fun found s₁ hfirst => ?_
    cases found with
    | none =>
      -- The declaration was noted as an error, so this does not happen without one.
      refine (ih.declarations endings s₁).mono fun ss s₂ hrest => ⟨?_, hrest.2⟩
      refine (hfirst.trans hrest.1).imp ?_
      rintro w ⟨_, _, rfl, ⟨d, hfound, -⟩, -⟩
      cases hfound
    | some first =>
      refine Ensures.bind (ih.declarations endings s₁) fun ss s₂ hrest => ?_
      refine ensures_pure ⟨(hfirst.trans hrest.1).imp ?_, hrest.2⟩
      rintro w ⟨_, _, rfl, ⟨d, hfound, hd⟩, hrest⟩
      cases hfound
      exact .declarationsMore hd hrest

theorem block_sound (ih : StmtSound fuel) (s : State) :
    Ensures (block (fuel + 1)) s fun ss s' =>
      Took (fun w => ∃ w' closing, w = w' ++ [closing] ∧ closing.kind = .rightBrace ∧
        StmtDerives .nearest (.declarations ss) w') s s' := by
  unfold block
  refine Ensures.bind (ih.declarations _ s) fun body s₁ hbody => ?_
  refine Ensures.bind (ensures_expectMark (by decide)) ?_
  rintro _ s₂ ⟨closing, hkind, hclosing⟩
  refine ensures_pure ((hbody.1.snoc hclosing).imp ?_)
  rintro w ⟨w', rfl, hbody⟩
  exact ⟨w', closing, rfl, hkind, hbody⟩

theorem routine_sound (ih : StmtSound fuel) (kind : Routine) (s : State) :
    Ensures (routine (fuel + 1) kind) s fun d s' =>
      Took (StmtDerives .nearest (.function d)) s s' := by
  unfold routine
  refine Ensures.bind ensures_expectName fun name s₁ hname => ?_
  refine Ensures.bind (ensures_expectMark (by decide)) ?_
  rintro _ s₂ ⟨leftParen, hleft, hleftParen⟩
  refine Ensures.peek_bind ?_
  -- With or without parameters the rest is the same.
  have hfinish : ∀ parameters s₃, Took (OptionalParameters parameters) s₂ s₃ →
      Ensures (do
        expectMark .rightParen .afterParameters
        expectMark .leftBrace (.beforeRoutineBody kind)
        let body ← block fuel
        return (⟨name, parameters, body⟩ : FunctionDecl)) s₃ fun d s' =>
          Took (StmtDerives .nearest (.function d)) s s' := by
    intro parameters s₃ hparameters
    refine Ensures.bind (ensures_expectMark (by decide)) ?_
    rintro _ s₄ ⟨rightParen, hright, hrightParen⟩
    refine Ensures.bind (ensures_expectMark (by decide)) ?_
    rintro _ s₅ ⟨opening, hbrace, hopening⟩
    refine Ensures.bind (ih.block s₅) fun body s₆ hbody => ?_
    refine ensures_pure ((hname.2.cons (hleftParen.cons (hparameters.trans
      (hrightParen.cons (hopening.cons hbody))))).imp ?_)
    rintro w ⟨_, rfl, _, rfl, w₁, _, rfl, hparameters, _, rfl, _, rfl, w₂, closing, rfl, hclosing,
      hbody⟩
    exact .function hname.1 hleft hparameters hright hbrace hbody hclosing
  split
  · exact hfinish [] s₂ (.nothing .absent)
  · refine Ensures.bind (parameterList_sound fuel 0 s₂) fun names s₃ hnames => ?_
    refine hfinish names s₃ (hnames.imp fun w hw => .present hw.1 ?_)
    rw [← Nat.zero_add names.length]
    exact hw.2

theorem methods_sound (ih : StmtSound fuel) (s : State) :
    Ensures (methods (fuel + 1)) s fun ds s' =>
      Took (StmtDerives .nearest (.functions ds)) s s' := by
  unfold methods
  refine Ensures.peek_bind ?_
  split
  · exact ensures_pure (.nothing .functionsEnd)
  · refine Ensures.bind (ih.routine .method s) fun first s₁ hfirst => ?_
    refine Ensures.bind (ih.methods s₁) fun ds s₂ hrest => ?_
    refine ensures_pure ((hfirst.trans hrest).imp ?_)
    rintro w ⟨w₁, w₂, rfl, hfirst, hrest⟩
    exact .functionsMore hfirst hrest

theorem classDeclaration_sound (ih : StmtSound fuel) (s : State) :
    Ensures (classDeclaration (fuel + 1)) s fun d s' =>
      Took (fun w => ∀ keyword : Token, keyword.kind = .kwClass →
        StmtDerives .nearest (.declaration d) (keyword :: w)) s s' := by
  unfold classDeclaration
  refine Ensures.bind ensures_expectName fun name s₁ hname => ?_
  -- With or without a superclass the rest is the same.
  have hfinish : ∀ superclass s₂, Took (Superclass superclass) s₁ s₂ →
      Ensures (do
        expectMark .leftBrace .beforeClassBody
        let body ← methods fuel
        expectMark .rightBrace .afterClassBody
        return Stmt.class name superclass body) s₂ fun d s' =>
          Took (fun w => ∀ keyword : Token, keyword.kind = .kwClass →
            StmtDerives .nearest (.declaration d) (keyword :: w)) s s' := by
    intro superclass s₂ hsuper
    refine Ensures.bind (ensures_expectMark (by decide)) ?_
    rintro _ s₃ ⟨opening, hbrace, hopening⟩
    refine Ensures.bind (ih.methods s₃) fun ds s₄ hmethods => ?_
    refine Ensures.bind (ensures_expectMark (by decide)) ?_
    rintro _ s₅ ⟨closing, hkind, hclosing⟩
    refine ensures_pure ((hname.2.cons (hsuper.trans
      (hopening.cons (hmethods.snoc hclosing)))).imp ?_)
    rintro w ⟨_, rfl, w₁, _, rfl, hsuper, _, rfl, w₂, rfl, hmethods⟩ keyword hkeyword
    exact .classDecl hkeyword hname.1 hsuper hbrace hmethods hkind
  refine Ensures.bind (ensures_accept (by decide)) fun found s₂ hfound => ?_
  rcases hfound with ⟨less, rfl, hless, htook⟩ | ⟨rfl, rfl, -⟩
  · refine Ensures.map_bind (superclassName_sound s₂) ?_
    rintro ⟨id, token⟩ s₃ ⟨hkind, hparent⟩
    refine hfinish _ s₃ ((htook.cons hparent).imp ?_)
    rintro w ⟨_, rfl, rfl⟩
    exact .present hless hkind
  · exact Ensures.pure_bind (hfinish none _ (.nothing .absent))

theorem statement_sound (ih : StmtSound fuel) (s : State) :
    Ensures (statement (fuel + 1)) s fun stmt s' =>
      Took (fun w => ∃ ending, StmtDerives .nearest (.statement ending stmt) w ∧
        (ending = .opened → s'.ahead.kind ≠ .kwElse)) s s' := by
  unfold statement
  refine Ensures.peek_bind ?_
  split
  · -- A `for` loop: the keyword, the three clauses in parentheses, and the body.
    rename_i hkind
    refine Ensures.bind (ensures_advance (by rw [hkind]; decide)) ?_
    rintro keyword s₁ ⟨rfl, hkeyword⟩
    refine Ensures.bind (ensures_expectMark (by decide)) ?_
    rintro _ s₂ ⟨leftParen, hleft, hleftParen⟩
    refine Ensures.bind (forInitializer_sound fuel s₂) fun initializer s₃ hinitializer => ?_
    refine Ensures.bind (optionalExpression_sound fuel _ s₃) fun condition s₄ hcondition => ?_
    refine Ensures.bind (ensures_expectMark (by decide)) ?_
    rintro _ s₅ ⟨semicolon, hsemi, hsemicolon⟩
    refine Ensures.bind (optionalExpression_sound fuel _ s₅) fun increment s₆ hincrement => ?_
    refine Ensures.bind (ensures_expectMark (by decide)) ?_
    rintro _ s₇ ⟨rightParen, hright, hrightParen⟩
    refine Ensures.bind (ih.statement s₇) fun body s₈ hbody => ?_
    refine ensures_pure ((hkeyword.cons (hleftParen.cons (hinitializer.trans (hcondition.trans
      (hsemicolon.cons (hincrement.trans (hrightParen.cons hbody))))))).imp ?_)
    rintro w ⟨_, rfl, _, rfl, w₁, _, rfl, hinitializer, w₂, _, rfl, hcondition, _, rfl,
      w₃, _, rfl, hincrement, w₄, rfl, ending, hbody, helse⟩
    exact ⟨ending, .forStmt hkind hleft hinitializer hcondition hsemi hincrement hright hbody,
      helse⟩
  · -- A conditional: what is behind the branch decides which rule it is.
    rename_i hkind
    refine Ensures.bind (ensures_advance (by rw [hkind]; decide)) ?_
    rintro keyword s₁ ⟨rfl, hkeyword⟩
    refine Ensures.bind (ensures_expectMark (by decide)) ?_
    rintro _ s₂ ⟨leftParen, hleft, hleftParen⟩
    refine Ensures.bind ((exprSound fuel).expression s₂) fun condition s₃ hcondition => ?_
    refine Ensures.bind (ensures_expectMark (by decide)) ?_
    rintro _ s₄ ⟨rightParen, hright, hrightParen⟩
    refine Ensures.bind (ih.statement s₄) fun thenBranch s₅ hthen => ?_
    refine Ensures.bind (ensures_accept (by decide)) fun found s₆ hfound => ?_
    rcases hfound with ⟨kwElse, rfl, hkwElse, htook⟩ | ⟨rfl, rfl, habsent⟩
    · refine Ensures.bind (ih.statement s₆) fun elseBranch s₇ helse => ?_
      have hall := hkeyword.cons (hleftParen.cons (hcondition.trans
        (hrightParen.cons (hthen.trans (htook.cons helse)))))
      refine ensures_pure fun hclean => ?_
      obtain ⟨hs, w, hw, _, rfl, _, rfl, w₁, _, rfl, hcondition, _, rfl, w₂, _, rfl,
        ⟨thenEnding, hthen, hopened⟩, w₃, rfl, elseEnding, helseBranch, hafter⟩ := hall hclean
      -- The `else` was ahead behind the branch, so that branch is one that cannot take it.
      have hahead : s₅.ahead.kind = .kwElse := by
        obtain ⟨hs₆, -⟩ := helse hclean
        obtain ⟨-, _, hrest, rfl⟩ := htook hs₆
        rw [State.ahead, hrest]
        exact hkwElse
      have hclosed : Attachment.nearest = .nearest → thenEnding = .closed := by
        intro _
        cases thenEnding with
        | closed => rfl
        | opened => exact absurd hahead (hopened rfl)
      exact ⟨hs, _, hw, elseEnding,
        .ifElseStmt hkind hleft hcondition hright hthen hclosed hkwElse helseBranch, hafter⟩
    · -- Without an `else` ahead the statement is open.
      refine ensures_pure ((hkeyword.cons (hleftParen.cons (hcondition.trans
        (hrightParen.cons hthen)))).imp ?_)
      rintro w ⟨_, rfl, _, rfl, w₁, _, rfl, hcondition, w₂, rfl, ending, hthen, -⟩
      exact ⟨.opened, .ifStmt hkind hleft hcondition hright hthen, fun _ => habsent⟩
  · -- A `while` loop; it ends as its body does.
    rename_i hkind
    refine Ensures.bind (ensures_advance (by rw [hkind]; decide)) ?_
    rintro keyword s₁ ⟨rfl, hkeyword⟩
    refine Ensures.bind (ensures_expectMark (by decide)) ?_
    rintro _ s₂ ⟨leftParen, hleft, hleftParen⟩
    refine Ensures.bind ((exprSound fuel).expression s₂) fun condition s₃ hcondition => ?_
    refine Ensures.bind (ensures_expectMark (by decide)) ?_
    rintro _ s₄ ⟨rightParen, hright, hrightParen⟩
    refine Ensures.bind (ih.statement s₄) fun body s₅ hbody => ?_
    refine ensures_pure ((hkeyword.cons (hleftParen.cons (hcondition.trans
      (hrightParen.cons hbody)))).imp ?_)
    rintro w ⟨_, rfl, _, rfl, w₁, _, rfl, hcondition, w₂, rfl, ending, hbody, helse⟩
    exact ⟨ending, .whileStmt hkind hleft hcondition hright hbody, helse⟩
  · -- A `return`, with or without a value.
    rename_i hkind
    refine Ensures.bind (ensures_advance (by rw [hkind]; decide)) ?_
    rintro keyword s₁ ⟨rfl, hkeyword⟩
    refine Ensures.bind (optionalExpression_sound fuel _ s₁) fun value s₂ hvalue => ?_
    refine Ensures.bind (ensures_expectMark (by decide)) ?_
    rintro _ s₃ ⟨semicolon, hsemi, hsemicolon⟩
    refine ensures_pure ((hkeyword.cons (hvalue.snoc hsemicolon)).imp ?_)
    rintro w ⟨_, rfl, w', rfl, hvalue⟩
    exact ⟨.closed, .returnStmt hkind hvalue hsemi, fun hopened => absurd hopened (by decide)⟩
  · -- The jumps are a keyword and a semicolon.
    rename_i hkind
    refine Ensures.bind (ensures_advance (by rw [hkind]; decide)) ?_
    rintro keyword s₁ ⟨rfl, hkeyword⟩
    refine Ensures.bind (ensures_expectMark (by decide)) ?_
    rintro _ s₂ ⟨semicolon, hsemi, hsemicolon⟩
    refine ensures_pure ((hkeyword.cons hsemicolon).imp ?_)
    rintro w ⟨_, rfl, rfl⟩
    exact ⟨.closed, .breakStmt hkind hsemi, fun hopened => absurd hopened (by decide)⟩
  · rename_i hkind
    refine Ensures.bind (ensures_advance (by rw [hkind]; decide)) ?_
    rintro keyword s₁ ⟨rfl, hkeyword⟩
    refine Ensures.bind (ensures_expectMark (by decide)) ?_
    rintro _ s₂ ⟨semicolon, hsemi, hsemicolon⟩
    refine ensures_pure ((hkeyword.cons hsemicolon).imp ?_)
    rintro w ⟨_, rfl, rfl⟩
    exact ⟨.closed, .continueStmt hkind hsemi, fun hopened => absurd hopened (by decide)⟩
  · -- A block ends with its brace, so an `else` may follow.
    rename_i hkind
    refine Ensures.bind (ensures_advance (by rw [hkind]; decide)) ?_
    rintro opening s₁ ⟨rfl, hopening⟩
    refine Ensures.bind (ih.block s₁) fun body s₂ hbody => ?_
    refine ensures_pure ((hopening.cons hbody).imp ?_)
    rintro w ⟨_, rfl, w', closing, rfl, hclosing, hbody⟩
    exact ⟨.closed, .block hkind hbody hclosing, fun hopened => absurd hopened (by decide)⟩
  · -- All else is an expression and a semicolon.
    refine (expressionStatement_sound fuel s).mono fun stmt s₁ hstmt => hstmt.imp fun w hw => ?_
    exact ⟨.closed, .exprStmt hw, fun hopened => absurd hopened (by decide)⟩

theorem stmtSound : ∀ fuel, StmtSound fuel := by
  intro fuel
  induction fuel with
  | zero =>
    exact {
      declaration := fun _ => ensures_outOfFuel
      declarations := fun _ _ => ensures_outOfFuel
      block := fun _ => ensures_outOfFuel
      routine := fun _ _ => ensures_outOfFuel
      methods := fun _ => ensures_outOfFuel
      classDeclaration := fun _ => ensures_outOfFuel
      statement := fun _ => ensures_outOfFuel }
  | succ fuel ih =>
    exact {
      declaration := declaration_sound ih
      declarations := declarations_sound ih
      block := block_sound ih
      routine := routine_sound ih
      methods := methods_sound ih
      classDeclaration := classDeclaration_sound ih
      statement := statement_sound ih }

end Lox.Parser
