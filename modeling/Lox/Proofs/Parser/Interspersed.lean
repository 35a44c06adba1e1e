import Lox.Proofs.Parser.AbreastStatement
import Lox.Proofs.Parser.InPlace

/-!
# Bad declarations between good ones

A flat run is what stands before and at the first semicolon of a declaration without
braces, whether or not it can be read.  Put next to the declarations of a program, at its
top level or in any block, function or method, each flat run gives just the errors that it
gives by itself: recovery goes on right behind its semicolon, wherever it was missed.
-/

namespace Lox.Parser

open Lox.Grammar

/-! ### Flat runs -/

/-- A run of tokens up to a semicolon, with no braces and no keyword of a statement inside. -/
inductive Flat : List Token → Prop where
  | mk {front : List Token} {semicolon : Token} :
      (∀ t ∈ front, t.kind ∉ [TokenKind.semicolon, .leftBrace, .rightBrace, .eof]) →
      (∀ t ∈ front.head?, t.kind ∉ [TokenKind.kwFor, .kwElse]) →
      (∀ t ∈ front.tail, t.kind ∉ [TokenKind.kwClass, .kwFun, .kwVar, .kwFor, .kwIf, .kwWhile,
        .kwReturn]) →
      semicolon.kind = .semicolon → Flat (front ++ [semicolon])

theorem startsStatement_eq_false {kind : TokenKind}
    (h : kind ∉ [TokenKind.kwClass, .kwFun, .kwVar, .kwFor, .kwIf, .kwWhile, .kwReturn]) :
    startsStatement kind = false := by
  cases kind <;> first | rfl | exact absurd (by decide) h

/-- The two ways in which a flat run starts: with a plain token or with a keyword. -/
theorem Flat.abreast {front : List Token} {P : Places} (hP : P.NoElseBehind)
    (hfront : ∀ t ∈ front, t.kind ∉ [TokenKind.semicolon, .leftBrace, .rightBrace, .eof])
    (hhead : ∀ t ∈ front.head?, t.kind ∉ [TokenKind.kwFor, .kwElse])
    (htail : ∀ t ∈ front.tail, t.kind ∉ [TokenKind.kwClass, .kwFun, .kwVar, .kwFor, .kwIf,
      .kwWhile, .kwReturn]) (fuel : Nat) (n n' : NodeId) :
    P.Abreast P.Behind (fun _ _ => True) (declaration fuel) (declaration fuel)
      ⟨front ++ P.semicolon :: P.rest, P.errors, n⟩
      ⟨front ++ P.semicolon :: P.rest', P.errors', n'⟩ := by
  rw [← List.append_nil P.errors, ← List.append_nil P.errors']
  cases front with
  | nil =>
    refine Places.abreast_declaration_plain (.mk ?_)
    intro t ht
    cases ht
  | cons t u =>
    have hu : ∀ t ∈ u, Token.IsPlain t := fun t ht =>
      ⟨hfront t (List.mem_cons_of_mem _ ht), startsStatement_eq_false (htail t ht)⟩
    have ht := hfront t List.mem_cons_self
    have hfor := hhead t rfl
    by_cases hkeyword : t.kind ∈ [TokenKind.kwClass, .kwFun, .kwVar, .kwFor, .kwIf, .kwWhile,
      .kwReturn]
    · have heof : t.kind ≠ .eof := fun heq => ht (by rw [heq]; decide)
      refine Places.abreast_declaration_headed hP ?_ (.mk hu heof)
      simp only [List.mem_cons, List.not_mem_nil, or_false] at hkeyword hfor ⊢
      grind
    · refine Places.abreast_declaration_plain (.mk (u := t :: u) fun t' ht' => ?_)
      rcases List.mem_cons.mp ht' with rfl | ht'
      · exact ⟨ht, startsStatement_eq_false hkeyword⟩
      · exact hu t' ht'

/-- The errors that a parse of the run by itself reports. -/
def alone (run : List Token) : List GrammarError :=
  reported (parse (run ++ [.endOfInput 0]) 0).1

/-- A flat run is read up to its end with the same errors everywhere. -/
theorem Flat.exists_reads {run : List Token} (h : Flat run) :
    ∃ es, ∀ n, ReadsFrom n declaration run es (· ≠ .kwElse) (fun _ _ => True) := by
  cases h with
  | @mk front semicolon hfront hhead htail hsemi =>
    -- One parse of the run, with nothing behind it, determines the errors.
    have hahead : (State.mk (front ++ [semicolon]) [] 0).ahead.kind ≠ .eof := by
      cases front with
      | nil =>
        change semicolon.kind ≠ .eof
        rw [hsemi]
        decide
      | cons t front =>
        intro heq
        refine hfront t List.mem_cons_self ?_
        rw [show t.kind = .eof from heq]
        decide
    obtain ⟨fuel, found, s, hrun⟩ : ∃ fuel found s,
        declaration fuel ⟨front ++ [semicolon], [], 0⟩ = .ok found s := by
      obtain ⟨found, s, hrun, -⟩ := exists_declaration hahead (Nat.le_refl _)
      exact ⟨_, found, s, hrun⟩
    refine ⟨s.errors, fun n rest errors hrest => ?_⟩
    have habreast := Flat.abreast (P := ⟨semicolon, hsemi, [], rest, [], errors⟩)
      ⟨show nextKind [] ≠ .kwElse by decide, hrest⟩ hfront hhead htail fuel 0 n
    unfold Places.Abreast at habreast
    rw [hrun] at habreast
    split at habreast
    · rename_i ha hb
      cases ha
      obtain ⟨-, hbehind⟩ := habreast
      cases hbehind with
      | @mk es m m' =>
        have hsettles := Settles.of_ok (fun fuel => (stmtDeeper fuel).declaration) hb
        rw [← List.singleton_append, ← List.append_assoc] at hsettles
        exact ⟨_, m', hsettles, trivial⟩
    · rename_i ha hb
      cases ha
    · rename_i ha hb
      cases ha
    · exact habreast.elim

theorem Flat.starts {run : List Token} (h : Flat run) :
    ∃ t w, run = t :: w ∧ t.kind ∉ [TokenKind.rightBrace, .eof, .kwElse] := by
  cases h with
  | @mk front semicolon hfront hhead _ hsemi =>
    cases front with
    | nil => exact ⟨semicolon, [], rfl, by rw [hsemi]; decide⟩
    | cons t front =>
      have ht := hfront t List.mem_cons_self
      have helse := hhead t rfl
      refine ⟨t, front ++ [semicolon], rfl, ?_⟩
      simp only [List.mem_cons, List.not_mem_nil, or_false, not_or] at ht helse ⊢
      exact ⟨ht.2.2.1, ht.2.2.2, helse.2⟩

theorem Flat.reads {run w : List Token} {es : List GrammarError} {n : NodeId}
    {endings : List TokenKind} (h : Flat run) (hendings : endings ⊆ [.rightBrace, .eof])
    (hnext : NoElse w)
    (hrest : ∀ m, ReadsFrom m (fun fuel => declarations fuel endings) w es (· ∈ endings)
      (fun _ _ => True)) {es₀ : List GrammarError}
    (hrun : ReadsFrom n declaration run es₀ (· ≠ .kwElse) (fun _ _ => True)) :
    ReadsFrom n (fun fuel => declarations fuel endings) (run ++ w) (es₀ ++ es) (· ∈ endings)
      (fun _ _ => True) := by
  obtain ⟨t, u, rfl, ht⟩ := h.starts
  refine reads_next hendings ⟨t, u, rfl, List.mem_singleton_self _⟩ ?_ hnext hrun hrest
    fun _ _ _ _ _ _ => trivial
  intro kind hkind
  rw [List.mem_singleton.mp hkind]
  exact fun hmem => ht (List.mem_append_left [TokenKind.kwElse] hmem)

/-- A flat run gives the same errors with any end of input and any identities. -/
theorem Flat.reads_alone {run : List Token} (h : Flat run) :
    (∀ n, ReadsFrom n declaration run (alone run) (· ≠ .kwElse) (fun _ _ => True)) ∧
    ∀ last nextId, last.kind = .eof → reported (parse (run ++ [last]) nextId).1 = alone run := by
  obtain ⟨es, hes⟩ := h.exists_reads
  have hreported : ∀ last nextId, last.kind = .eof →
      reported (parse (run ++ [last]) nextId).1 = es := by
    intro last nextId hlast
    have hend : ∀ m, ReadsFrom m (fun fuel => declarations fuel [.eof]) [] []
        (· ∈ [TokenKind.eof]) (fun _ _ => True) := fun m =>
      (@reads_declarationsEnd True m [.eof] (by decide)).imp fun _ _ _ => trivial
    have hread : ReadsFrom nextId (fun fuel => declarations fuel [.eof]) (run ++ []) (es ++ [])
        (· ∈ [TokenKind.eof]) (fun _ _ => True) :=
      h.reads (by decide) noElse_nil hend (hes nextId)
    rw [List.append_nil, List.append_nil] at hread
    exact reported_of_reads hread hlast
  have halone : alone run = es := hreported (.endOfInput 0) 0 rfl
  exact ⟨fun n => halone ▸ hes n, fun last nextId hlast => halone ▸ hreported last nextId hlast⟩

/-! ### Runs between declarations -/

/--
The tokens `w` form a phrase, and `w'` are these tokens with the flat runs put next to
declarations: at any place among the declarations of the phrase, of its blocks and of the
bodies of its functions and methods.
-/
inductive Interspersed : List (List Token) → StmtPhrase → List Token → List Token → Prop where
  | same {phrase : StmtPhrase} {w : List Token} :
      StmtDerives .nearest phrase w → Interspersed [] phrase w w
  | run {run : List Token} {runs : List (List Token)} {ss : List Stmt} {w w' : List Token} :
      Flat run → Interspersed runs (.declarations ss) w w' →
      Interspersed (run :: runs) (.declarations ss) w (run ++ w')
  | declarationsMore {s : Stmt} {ss : List Stmt} {runs₁ runs₂ : List (List Token)}
      {w₁ w₁' w₂ w₂' : List Token} :
      Interspersed runs₁ (.declaration s) w₁ w₁' → Interspersed runs₂ (.declarations ss) w₂ w₂' →
      Interspersed (runs₁ ++ runs₂) (.declarations (s :: ss)) (w₁ ++ w₂) (w₁' ++ w₂')
  | classDecl {keyword name opening closing : Token} {superclass : Option Occurrence}
      {methods : List FunctionDecl} {runs : List (List Token)} {w₁ w₂ w₂' : List Token} :
      keyword.kind = .kwClass → name.kind = .identifier → Superclass superclass w₁ →
      opening.kind = .leftBrace → Interspersed runs (.functions methods) w₂ w₂' →
      closing.kind = .rightBrace →
      Interspersed runs (.declaration (.class name superclass methods))
        (keyword :: name :: (w₁ ++ opening :: (w₂ ++ [closing])))
        (keyword :: name :: (w₁ ++ opening :: (w₂' ++ [closing])))
  | funDecl {keyword : Token} {d : FunctionDecl} {runs : List (List Token)}
      {w w' : List Token} :
      keyword.kind = .kwFun → Interspersed runs (.function d) w w' →
      Interspersed runs (.declaration (.function d)) (keyword :: w) (keyword :: w')
  | plain {ending : Ending} {s : Stmt} {runs : List (List Token)} {w w' : List Token} :
      Interspersed runs (.statement ending s) w w' → Interspersed runs (.declaration s) w w'
  | function {name leftParen rightParen opening closing : Token} {parameters : List Token}
      {body : List Stmt} {runs : List (List Token)} {w₁ w₂ w₂' : List Token} :
      name.kind = .identifier → leftParen.kind = .leftParen →
      OptionalParameters parameters w₁ → rightParen.kind = .rightParen →
      opening.kind = .leftBrace → Interspersed runs (.declarations body) w₂ w₂' →
      closing.kind = .rightBrace →
      Interspersed runs (.function ⟨name, parameters, body⟩)
        (name :: leftParen :: (w₁ ++ rightParen :: opening :: (w₂ ++ [closing])))
        (name :: leftParen :: (w₁ ++ rightParen :: opening :: (w₂' ++ [closing])))
  | functionsMore {d : FunctionDecl} {ds : List FunctionDecl} {runs₁ runs₂ : List (List Token)}
      {w₁ w₁' w₂ w₂' : List Token} :
      Interspersed runs₁ (.function d) w₁ w₁' → Interspersed runs₂ (.functions ds) w₂ w₂' →
      Interspersed (runs₁ ++ runs₂) (.functions (d :: ds)) (w₁ ++ w₂) (w₁' ++ w₂')
  | forStmt {keyword leftParen semicolon rightParen : Token} {initializer : Option Stmt}
      {condition increment : Option Expr} {ending : Ending} {body : Stmt}
      {runs : List (List Token)} {w₁ w₂ w₃ w₄ w₄' : List Token} :
      keyword.kind = .kwFor → leftParen.kind = .leftParen → ForInit initializer w₁ →
      OptionalExpr condition w₂ → semicolon.kind = .semicolon → OptionalExpr increment w₃ →
      rightParen.kind = .rightParen → Interspersed runs (.statement ending body) w₄ w₄' →
      Interspersed runs (.statement ending (forTree initializer condition increment body))
        (keyword :: leftParen :: (w₁ ++ (w₂ ++ semicolon :: (w₃ ++ rightParen :: w₄))))
        (keyword :: leftParen :: (w₁ ++ (w₂ ++ semicolon :: (w₃ ++ rightParen :: w₄'))))
  | ifStmt {keyword leftParen rightParen : Token} {condition : Expr} {ending : Ending}
      {thenBranch : Stmt} {runs : List (List Token)} {w₁ w₂ w₂' : List Token} :
      keyword.kind = .kwIf → leftParen.kind = .leftParen →
      ExprDerives (.expression condition) w₁ → rightParen.kind = .rightParen →
      Interspersed runs (.statement ending thenBranch) w₂ w₂' →
      Interspersed runs (.statement .opened (.conditional condition thenBranch none))
        (keyword :: leftParen :: (w₁ ++ rightParen :: w₂))
        (keyword :: leftParen :: (w₁ ++ rightParen :: w₂'))
  | ifElseStmt {keyword leftParen rightParen kwElse : Token} {condition : Expr}
      {elseEnding : Ending} {thenBranch elseBranch : Stmt} {runs₁ runs₂ : List (List Token)}
      {w₁ w₂ w₂' w₃ w₃' : List Token} :
      keyword.kind = .kwIf → leftParen.kind = .leftParen →
      ExprDerives (.expression condition) w₁ → rightParen.kind = .rightParen →
      Interspersed runs₁ (.statement .closed thenBranch) w₂ w₂' → kwElse.kind = .kwElse →
      Interspersed runs₂ (.statement elseEnding elseBranch) w₃ w₃' →
      Interspersed (runs₁ ++ runs₂)
        (.statement elseEnding (.conditional condition thenBranch (some elseBranch)))
        (keyword :: leftParen :: (w₁ ++ rightParen :: (w₂ ++ kwElse :: w₃)))
        (keyword :: leftParen :: (w₁ ++ rightParen :: (w₂' ++ kwElse :: w₃')))
  | whileStmt {keyword leftParen rightParen : Token} {condition : Expr} {ending : Ending}
      {body : Stmt} {runs : List (List Token)} {w₁ w₂ w₂' : List Token} :
      keyword.kind = .kwWhile → leftParen.kind = .leftParen →
      ExprDerives (.expression condition) w₁ → rightParen.kind = .rightParen →
      Interspersed runs (.statement ending body) w₂ w₂' →
      Interspersed runs (.statement ending (.loop condition body none))
        (keyword :: leftParen :: (w₁ ++ rightParen :: w₂))
        (keyword :: leftParen :: (w₁ ++ rightParen :: w₂'))
  | block {opening closing : Token} {body : List Stmt} {runs : List (List Token)}
      {w w' : List Token} :
      opening.kind = .leftBrace → Interspersed runs (.declarations body) w w' →
      closing.kind = .rightBrace →
      Interspersed runs (.statement .closed (.block body)) (opening :: (w ++ [closing]))
        (opening :: (w' ++ [closing]))

namespace Interspersed

variable {runs : List (List Token)} {w w' : List Token}

theorem statement_starts {ending : Ending} {s : Stmt}
    (h : Interspersed runs (.statement ending s) w w') : StartsWith statementStarts w' := by
  cases h with
  | same hderives => exact hderives.statement_starts
  | forStmt hkind => exact startsWith_cons hkind (by decide)
  | ifStmt hkind => exact startsWith_cons hkind (by decide)
  | ifElseStmt hkind => exact startsWith_cons hkind (by decide)
  | whileStmt hkind => exact startsWith_cons hkind (by decide)
  | block hkind => exact startsWith_cons hkind (by decide)

theorem declaration_starts {s : Stmt} (h : Interspersed runs (.declaration s) w w') :
    StartsWith declarationStarts w' := by
  cases h with
  | same hderives => exact hderives.declaration_starts
  | classDecl hkind => exact startsWith_cons hkind (by decide)
  | funDecl hkind => exact startsWith_cons hkind (by decide)
  | plain hstmt => exact hstmt.statement_starts.mono (by decide)

theorem function_starts {d : FunctionDecl} (h : Interspersed runs (.function d) w w') :
    StartsWith [.identifier] w' := by
  cases h with
  | same hderives => exact hderives.function_starts
  | function hname => exact startsWith_cons hname (by decide)

theorem noElse {ss : List Stmt} (h : Interspersed runs (.declarations ss) w w') : NoElse w' := by
  cases h with
  | same hderives => exact noElse_declarations (Relaxed.unbroken hderives)
  | run hflat _ =>
    obtain ⟨t, u, rfl, ht⟩ := hflat.starts
    intro rest _ helse
    exact ht (by rw [show t.kind = .kwElse from helse]; decide)
  | declarationsMore hfirst _ => exact noElse_of_startsWith hfirst.declaration_starts (by decide)

theorem flat {phrase : StmtPhrase} (h : Interspersed runs phrase w w') :
    ∀ run ∈ runs, Flat run := by
  induction h with
  | same =>
    intro run hrun
    cases hrun
  | run hflat _ ih => exact List.forall_mem_cons.mpr ⟨hflat, ih⟩
  | declarationsMore _ _ ih ih' => exact List.forall_mem_append.mpr ⟨ih, ih'⟩
  | classDecl _ _ _ _ _ _ ih => exact ih
  | funDecl _ _ ih => exact ih
  | plain _ ih => exact ih
  | function _ _ _ _ _ _ _ ih => exact ih
  | functionsMore _ _ ih ih' => exact List.forall_mem_append.mpr ⟨ih, ih'⟩
  | forStmt _ _ _ _ _ _ _ _ ih => exact ih
  | ifStmt _ _ _ _ _ ih => exact ih
  | ifElseStmt _ _ _ _ _ _ _ ih ih' => exact List.forall_mem_append.mpr ⟨ih, ih'⟩
  | whileStmt _ _ _ _ _ ih => exact ih
  | block _ _ _ ih => exact ih

/-- The parser reads what is interspersed, and notes just the errors of the runs. -/
theorem reads {phrase : StmtPhrase} (h : Interspersed runs phrase w w') :
    ReadsStmt False phrase w' (runs.flatMap alone) := by
  induction h with
  | same hderives => exact (readsStmt (Relaxed.unbroken hderives)).forget
  -- In front of the rest of a list stands a run, which is read with its errors alone.
  | run hflat hrest ih =>
    intro n endings hendings
    have hmore := hflat.reads (n := n) hendings hrest.noElse
      (fun m => (ih m endings hendings).imp fun _ _ _ => trivial) (hflat.reads_alone.1 n)
    exact hmore.imp fun _ _ _ hfalse => hfalse.elim
  -- Everywhere else the parts are read one behind the other, with their errors in a row.
  | declarationsMore hfirst hrest ih ih' =>
    rw [List.flatMap_append]
    exact reads_declarationsMore hfirst.declaration_starts hrest.noElse ih ih'
  | classDecl hkind hname hsuper hopening _ hclosing ih =>
    exact reads_classDecl hkind hname hsuper hopening hclosing ih
  | funDecl hkind _ ih => exact reads_funDecl hkind ih
  | plain h ih => exact reads_plain h.statement_starts ih
  | function hname hleft hparameters hright hopening _ hclosing ih =>
    exact reads_function hname hleft (Relaxed.unbroken_optionalParameters hparameters) hright
      hopening hclosing ih
  | functionsMore h _ ih ih' =>
    rw [List.flatMap_append]
    exact reads_functionsMore h.function_starts ih ih'
  | forStmt hkind hleft hinit hcondition hsemi hincrement hright _ ih =>
    exact reads_forStmt hkind hleft (Relaxed.unbroken_forInit hinit)
      (Relaxed.unbroken_optionalExpr hcondition) hsemi (Relaxed.unbroken_optionalExpr hincrement)
      hright ih
  | ifStmt hkind hleft hcondition hright _ ih =>
    exact reads_ifStmt hkind hleft (Relaxed.unbroken_expr hcondition) hright ih
  | ifElseStmt hkind hleft hcondition hright _ hkwElse _ ih ih' =>
    rw [List.flatMap_append]
    exact reads_ifElseStmt hkind hleft (Relaxed.unbroken_expr hcondition) hright ih hkwElse ih'
  | whileStmt hkind hleft hcondition hright _ ih =>
    exact reads_whileStmt hkind hleft (Relaxed.unbroken_expr hcondition) hright ih
  | block hopening _ hclosing ih => exact reads_block hopening hclosing ih

end Interspersed

/-! ### Programs -/

/-- The second tokens are those of the program with the runs put next to declarations. -/
inductive InterspersedProgram (runs : List (List Token)) (program : List Stmt) :
    List Token → List Token → Prop where
  | mk {w w' : List Token} {last : Token} :
      Interspersed runs (.declarations program) w w' → last.kind = .eof →
      InterspersedProgram runs program (w ++ [last]) (w' ++ [last])

/--
Recovery is local.  With flat runs put next to the declarations of tokens that are parsed
without an error, a parse reports the errors that the runs give by themselves, in order.
-/
theorem recovery_is_local {tokens : List Token} {nextId : NodeId} {program : List Stmt}
    (h : EndsWithOnlyEof tokens) (hparse : (parse tokens nextId).1 = .ok program) :
    InterspersedProgram [] program tokens tokens ∧
    ∀ runs tokens', InterspersedProgram runs program tokens tokens' →
      ∀ nextId' nextId'' last, last.kind = .eof →
        reported (parse tokens' nextId').1 =
          runs.flatMap fun run => reported (parse (run ++ [last]) nextId'').1 := by
  constructor
  · cases derives_of_parse h hparse with
    | mk hderives hlast => exact .mk (.same hderives) hlast
  · rintro runs tokens' ⟨hruns, hlast'⟩ nextId' nextId'' last hlast
    rw [reported_of_reads (hruns.reads nextId' [.eof] (by decide)) hlast', List.flatMap_def,
      List.flatMap_def]
    refine congrArg List.flatten (List.map_congr_left fun run hrun => ?_)
    exact ((hruns.flat run hrun).reads_alone.2 last nextId'' hlast).symm

/-- The tokens of `{ a; }` on the first line. -/
def nameInBlock : List Token :=
  [⟨.leftBrace, "\x7b", 1⟩, nameToken "a", ⟨.semicolon, ";", 1⟩, ⟨.rightBrace, "\x7d", 1⟩,
   .endOfInput 1]

/-- The tokens of `{ b c; a; } ;` on the first line. -/
def nameInBlockInterspersed : List Token :=
  [⟨.leftBrace, "\x7b", 1⟩, nameToken "b", nameToken "c", ⟨.semicolon, ";", 1⟩, nameToken "a",
   ⟨.semicolon, ";", 1⟩, ⟨.rightBrace, "\x7d", 1⟩, ⟨.semicolon, ";", 1⟩, .endOfInput 1]

/-- The run `b c;` and one semicolon. -/
def twoRuns : List (List Token) :=
  [[nameToken "b", nameToken "c", ⟨.semicolon, ";", 1⟩], [⟨.semicolon, ";", 1⟩]]

theorem nameInBlock_interspersed :
    (parse nameInBlock 0).1 = .ok [.block [.expression (.read ⟨0, nameToken "a"⟩)]] ∧
      InterspersedProgram twoRuns [.block [.expression (.read ⟨0, nameToken "a"⟩)]] nameInBlock
        nameInBlockInterspersed := by
  have ha : ExprStmt (.expression (.read ⟨0, nameToken "a"⟩)) [nameToken "a", ⟨.semicolon, ";", 1⟩] :=
    .mk (derives_name 0 rfl) rfl
  have hbody : StmtDerives .nearest (.declarations [.expression (.read ⟨0, nameToken "a"⟩)])
      [nameToken "a", ⟨.semicolon, ";", 1⟩] :=
    .declarationsMore (.plain (.exprStmt ha)) .declarationsEnd
  have hbad : Flat ([nameToken "b", nameToken "c"] ++ [⟨.semicolon, ";", 1⟩]) :=
    .mk (by decide) (by decide) (by decide) rfl
  have hempty : Flat ([] ++ [⟨.semicolon, ";", 1⟩]) :=
    .mk (by decide) (by decide) (by decide) rfl
  have hblock := @StmtDerives.block _ ⟨.leftBrace, "\x7b", 1⟩ ⟨.rightBrace, "\x7d", 1⟩ _ _
    rfl hbody rfl
  have hblock' := @Interspersed.block ⟨.leftBrace, "\x7b", 1⟩ ⟨.rightBrace, "\x7d", 1⟩ _ _ _ _
    rfl (.run hbad (.same hbody)) rfl
  constructor
  · exact congrArg Prod.fst (@parse_of_derives _ _ (.endOfInput 1)
      (.declarationsMore (.plain hblock) .declarationsEnd) rfl 0)
  · exact .mk (.declarationsMore (.plain hblock') (.run hempty (.same .declarationsEnd))) rfl

theorem nameInBlock_reported :
    reported (parse nameInBlockInterspersed 0).1 =
      [⟨.noMark .semicolon .afterExpression, nameToken "c"⟩, ⟨.noExpression, ⟨.semicolon, ";", 1⟩⟩] := by
  have honly : EndsWithOnlyEof nameInBlock :=
    ⟨nameInBlock.dropLast, .endOfInput 1, rfl, rfl, by decide⟩
  have hlocal := (recovery_is_local honly nameInBlock_interspersed.1).2 twoRuns
    nameInBlockInterspersed nameInBlock_interspersed.2 0 0 (.endOfInput 1) rfl
  exact hlocal.trans (by decide)

end Lox.Parser
