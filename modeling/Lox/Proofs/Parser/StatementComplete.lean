import Lox.Proofs.Parser.ExpressionComplete
import Lox.Proofs.Parser.StatementSound

/-!
# The parser reads every statement of the grammar

The counterpart for statements and declarations, for derivations that give every
`else` to the nearest `if`.  Behind a statement that could take an `else` none may
be ahead.  Each rule is stated for itself, of all that the parser reads like its parts,
and so that the tree can be left out of account.
-/

namespace Lox.Parser

open Lox.Grammar
open Lox.Grammar.Relaxed (excess)

variable {n : NodeId} {exact : Prop}

/-! ### Parts of statements -/

theorem reads_parameters {before : Nat} {names w : List Token} {es : List GrammarError}
    (h : Relaxed.Parameters before names w es) :
    ReadsFrom n (fun fuel => parameterList fuel before) w es (· = .rightParen)
      (fun names' m => names' = names ∧ m = n) := by
  induction h with
  | one hname =>
    rw [← List.append_nil (excess _ _ _)]
    refine .succ (.checkLength (.name hname (.accept_none (fun rest hnext => ?_) (.pure ⟨rfl, rfl⟩))))
    rw [List.nil_append, hnext]
    decide
  | more hname hcomma _ ih =>
    refine .succ (.checkLength (.name hname (.accept hcomma (by decide) (ih.bind_pure ?_))))
    rintro _ _ ⟨rfl, rfl⟩
    exact ⟨rfl, rfl⟩

theorem reads_optionalExpression {e : Option Expr} {w : List Token} {es : List GrammarError}
    (h : Relaxed.OptionalExpr e w es) (ending : TokenKind)
    (hending : ending ∈ [TokenKind.semicolon, .rightParen]) :
    ReadsFrom n (fun fuel => optionalExpression fuel ending) w es (· = ending)
      (fun e' m => es = [] → e' = Expr.numberedIn? n e ∧ m = n + Expr.drawnIn? e) := by
  cases h with
  | absent =>
    refine .congr (p := fun _ => pure none) (.pure fun _ => ⟨rfl, rfl⟩)
      fun fuel rest errors hnext => ?_
    have hahead : (State.mk rest errors n).ahead.kind = ending := hnext
    rw [List.nil_append, optionalExpression, peek_bind, if_pos hahead]
  | @present e _ _ he =>
    refine .congr (p := fun fuel => expression fuel >>= fun value => pure (some value)) ?_
      fun fuel rest errors _ => ?_
    · refine ReadsFrom.bind_pure ((readsExpr he n).before ?_) fun e' m he' hclean => ?_
      · rintro kind rfl
        simp only [List.mem_cons, List.not_mem_nil, or_false] at hending
        rcases hending with rfl | rfl <;> decide
      · obtain ⟨rfl, rfl⟩ := he'.exact hclean
        exact ⟨rfl, rfl⟩
    · have hahead : (State.mk (w ++ rest) errors n).ahead.kind ≠ ending := by
        refine ne_of_startsWith (he.starts id) ?_ rest
        simp only [List.mem_cons, List.not_mem_nil, or_false] at hending
        rcases hending with rfl | rfl <;> decide
      rw [optionalExpression, peek_bind, if_neg hahead]

theorem reads_expressionStatement {s : Stmt} {w : List Token} {es : List GrammarError}
    (h : Relaxed.ExprStmt s w es) :
    ReadsFrom n expressionStatement w es (fun _ => True)
      (fun s' m => es = [] → s' = s.numbered n ∧ m = n + s.drawn) := by
  cases h with
  | mk he hkind =>
    refine ReadsFrom.snoc (readsExpr he n) (by rw [hkind]; decide) fun e' m he' => ?_
    refine .mark hkind (by decide) (.pure fun hclean => ?_)
    obtain ⟨rfl, rfl⟩ := he'.exact hclean
    exact ⟨rfl, rfl⟩

/-- An initializer. -/
theorem reads_initializer {e : Expr} {w : List Token} {es : List GrammarError}
    (he : Relaxed.ExprDerives (.expression e) w es) :
    ReadsFrom n (fun fuel => some <$> expression fuel) w es (· ∈ expressionEnds)
      (fun found m => es = [] → found = some (e.numbered n) ∧ m = n + e.drawn) := by
  refine (readsExpr he n).map fun e' m he' hclean => ?_
  obtain ⟨rfl, rfl⟩ := he'.exact hclean
  exact ⟨rfl, rfl⟩

theorem reads_varDeclaration {s : Stmt} {keyword : Token} {w : List Token}
    {es : List GrammarError} (h : Relaxed.VarDecl s (keyword :: w) es) :
    ReadsFrom n varDeclaration w es (fun _ => True)
      (fun s' m => es = [] → s' = s.numbered n ∧ m = n + s.drawn) := by
  cases h with
  | plain _ hname hkind =>
    refine ReadsFrom.name hname (.accept_none (fun rest _ => ?_) ?_)
    · rw [nextKind, List.cons_append, List.headD_cons, hkind]
      decide
    · exact .mark hkind (by decide) (.pure fun _ => ⟨rfl, rfl⟩)
  | initialized _ hname hequals he hkind =>
    refine ReadsFrom.name hname (.accept hequals (by decide) ?_)
    refine ReadsFrom.snoc (reads_initializer he) (by rw [hkind]; decide) fun found m hfound => ?_
    refine .mark hkind (by decide) (.pure fun hclean => ?_)
    obtain ⟨rfl, rfl⟩ := hfound hclean
    exact ⟨rfl, rfl⟩

def drawnInitializer : Option Stmt → Nat
  | none => 0
  | some s => s.drawn

theorem reads_forInitializer {initializer : Option Stmt} {w : List Token}
    {es : List GrammarError} (h : Relaxed.ForInit initializer w es) :
    ReadsFrom n forInitializer w es (fun _ => True)
      (fun found m => es = [] → found = initializer.map (Stmt.numbered n) ∧
        m = n + drawnInitializer initializer) := by
  cases h with
  | var hvar =>
    obtain ⟨keyword, w, rfl, hkind⟩ := hvar.starts
    rw [List.mem_singleton] at hkind
    refine ReadsFrom.peek ?_
    simp only [hkind]
    refine .advance (by rw [hkind]; decide) ((reads_varDeclaration hvar).map fun s' m hs' hclean => ?_)
    obtain ⟨rfl, rfl⟩ := hs' hclean
    exact ⟨rfl, rfl⟩
  | @expression s _ _ hexpr =>
    have hread : ReadsFrom n (fun fuel => some <$> expressionStatement fuel) w es (fun _ => True)
        (fun found m => es = [] → found = some (s.numbered n) ∧ m = n + s.drawn) := by
      refine (reads_expressionStatement hexpr).map fun s' m hs' hclean => ?_
      obtain ⟨rfl, rfl⟩ := hs' hclean
      exact ⟨rfl, rfl⟩
    obtain ⟨t, w, rfl, hkind⟩ := hexpr.starts
    refine ReadsFrom.peek ?_
    generalize t.kind = kind at hkind ⊢
    cases kind <;> first | exact hread | exact absurd hkind (by decide)
  | absent hkind =>
    refine ReadsFrom.peek ?_
    simp only [hkind]
    exact .advance (by rw [hkind]; decide) (.pure fun _ => ⟨rfl, rfl⟩)

/-! ### Phrases -/

/--
What the parser does with the tokens of a phrase, in which there are the errors `es`.  If
the tree is to be exact, it is the tree of the phrase that is returned when there are none.
-/
def ReadsStmt (exact : Prop) : StmtPhrase → List Token → List GrammarError → Prop
  | .declaration s, w, es => ∀ n, ReadsFrom n declaration w es (· ≠ .kwElse)
      (fun found m => exact → es = [] → found = some (s.numbered n) ∧ m = n + s.drawn)
  | .declarations ss, w, es => ∀ n endings, endings ⊆ [.rightBrace, .eof] →
    ReadsFrom n (fun fuel => declarations fuel endings) w es (· ∈ endings)
      (fun ss' m => exact → es = [] → ss' = Stmt.numberedEach n ss ∧ m = n + Stmt.drawnEach ss)
  | .function d, w, es => ∀ n kind,
    ReadsFrom n (fun fuel => routine fuel kind) w es (fun _ => True)
      (fun d' m => exact → es = [] → d' = d.numbered n ∧ m = n + d.drawn)
  | .functions ds, w, es => ∀ n, ReadsFrom n methods w es (· = .rightBrace)
      (fun ds' m => exact → es = [] → ds' = FunctionDecl.numberedEach n ds ∧
        m = n + FunctionDecl.drawnEach ds)
  | .statement ending s, w, es => ∀ n,
    ReadsFrom n statement w es (fun kind => ending = .opened → kind ≠ .kwElse)
      (fun s' m => exact → es = [] → s' = s.numbered n ∧ m = n + s.drawn)

/-- The tree can be left out of account. -/
theorem ReadsStmt.forget {phrase : StmtPhrase} {w : List Token} {es : List GrammarError}
    (h : ReadsStmt True phrase w es) : ReadsStmt False phrase w es := by
  cases phrase with
  | declaration => exact fun n => (h n).imp fun _ _ _ hfalse => hfalse.elim
  | declarations =>
    exact fun n endings hendings => (h n endings hendings).imp fun _ _ _ hfalse => hfalse.elim
  | function => exact fun n kind => (h n kind).imp fun _ _ _ hfalse => hfalse.elim
  | functions => exact fun n => (h n).imp fun _ _ _ hfalse => hfalse.elim
  | statement => exact fun n => (h n).imp fun _ _ _ hfalse => hfalse.elim

/-- A block up to its closing brace. -/
theorem reads_body {body : List Stmt} {closing : Token} {w : List Token}
    {es : List GrammarError} (ih : ReadsStmt exact (.declarations body) w es)
    (hclosing : closing.kind = .rightBrace) (n : NodeId) :
    ReadsFrom n block (w ++ [closing]) es (fun _ => True)
      (fun body' m => exact → es = [] → body' = Stmt.numberedEach n body ∧
        m = n + Stmt.drawnEach body) := by
  refine .succ (ReadsFrom.snoc (ih n [.rightBrace, .eof] (List.Subset.refl _))
    (by rw [hclosing]; decide) fun body' m hbody => ?_)
  exact .mark hclosing (by decide) (.pure hbody)

/-! ### Declarations -/

theorem reads_declarationsEnd : ReadsStmt exact (.declarations []) [] [] := by
  intro n endings _
  refine .succ (.congr (p := fun _ => pure []) (.pure fun _ _ => ⟨rfl, rfl⟩)
    fun fuel rest errors hnext => ?_)
  have hahead : (State.mk rest errors n).ahead.kind ∈ endings := hnext
  rw [List.nil_append, declarations, peek_bind, if_pos hahead]

/-- What stands before the end of declarations does not start like the rest of an `if`. -/
def NoElse (w : List Token) : Prop :=
  ∀ rest, nextKind rest ∈ [TokenKind.rightBrace, .eof] → nextKind (w ++ rest) ≠ .kwElse

theorem noElse_nil : NoElse [] := by
  rintro rest hnext heq
  rw [List.nil_append] at heq
  rw [heq] at hnext
  exact absurd hnext (by decide)

theorem noElse_of_startsWith {kinds : List TokenKind} {w w' : List Token}
    (h : StartsWith kinds w) (hkinds : .kwElse ∉ kinds) : NoElse (w ++ w') := by
  intro rest _
  rw [List.append_assoc]
  exact ne_of_startsWith h hkinds _

/-- A declaration, whatever comes of it, and then others. -/
theorem reads_next {w₁ w₂ : List Token} {es₁ es₂ : List GrammarError}
    {kinds endings : List TokenKind} {found : Option Stmt → NodeId → Prop}
    {others : NodeId → List Stmt → NodeId → Prop} {post : List Stmt → NodeId → Prop}
    (hendings : endings ⊆ [.rightBrace, .eof]) (hstarts : StartsWith kinds w₁)
    (hkinds : ∀ kind ∈ kinds, kind ∉ [TokenKind.rightBrace, .eof]) (hnext : NoElse w₂)
    (hfirst : ReadsFrom n declaration w₁ es₁ (· ≠ .kwElse) found)
    (hrest : ∀ m, ReadsFrom m (fun fuel => declarations fuel endings) w₂ es₂ (· ∈ endings)
      (others m))
    (hpost : ∀ a m ss k, found a m → others m ss k → post (a.toList ++ ss) k) :
    ReadsFrom n (fun fuel => declarations fuel endings) (w₁ ++ w₂) (es₁ ++ es₂) (· ∈ endings)
      post := by
  obtain ⟨t, w, rfl, hkind⟩ := hstarts
  have hgoes : t.kind ∉ endings := fun hmem => hkinds _ hkind (hendings hmem)
  refine .succ (ReadsFrom.peek ?_)
  simp only [if_neg hgoes]
  refine hfirst.bind (fun rest h => hnext rest (hendings h)) fun a m ha => ?_
  cases a with
  | some first => exact (hrest m).bind_pure fun ss k hss => hpost (some first) m ss k ha hss
  | none => exact (hrest m).imp fun ss k hss => hpost none m ss k ha hss

theorem reads_declarationsMore {s : Stmt} {ss : List Stmt} {w₁ w₂ : List Token}
    {es₁ es₂ : List GrammarError} (hstarts : StartsWith declarationStarts w₁)
    (hnext : NoElse w₂) (ih : ReadsStmt exact (.declaration s) w₁ es₁)
    (ih' : ReadsStmt exact (.declarations ss) w₂ es₂) :
    ReadsStmt exact (.declarations (s :: ss)) (w₁ ++ w₂) (es₁ ++ es₂) := by
  intro n endings hendings
  refine reads_next hendings hstarts (by decide) hnext (ih n) (fun m => ih' m endings hendings) ?_
  intro found m ss' k hfound hss' hexact hclean
  obtain ⟨hclean₁, hclean₂⟩ := List.append_eq_nil_iff.mp hclean
  obtain ⟨rfl, rfl⟩ := hfound hexact hclean₁
  obtain ⟨rfl, rfl⟩ := hss' hexact hclean₂
  exact ⟨rfl, by rw [Nat.add_assoc]; rfl⟩

/-- A declaration that can be read needs no recovery. -/
theorem reads_recovering {p : Nat → Parser Stmt} {s : Stmt} {w : List Token}
    {es : List GrammarError} {behind : TokenKind → Prop}
    (hp : ReadsFrom n p w es behind
      (fun s' m => exact → es = [] → s' = s.numbered n ∧ m = n + s.drawn)) :
    ReadsFrom n (fun fuel => recovering (p fuel)) w es behind
      (fun found m => exact → es = [] → found = some (s.numbered n) ∧ m = n + s.drawn) := by
  refine hp.recovering fun s' m hs' hexact hclean => ?_
  obtain ⟨rfl, rfl⟩ := hs' hexact hclean
  exact ⟨rfl, rfl⟩

theorem reads_varDecl {s : Stmt} {w : List Token} {es : List GrammarError}
    (h : Relaxed.VarDecl s w es) : ReadsStmt exact (.declaration s) w es := by
  intro n
  obtain ⟨keyword, w, rfl, hkind⟩ := h.starts
  rw [List.mem_singleton] at hkind
  refine .succ (reads_recovering (.peek ?_))
  simp only [hkind]
  refine .advance (by rw [hkind]; decide) (((reads_varDeclaration h).imp ?_).before ?_)
  · exact fun s' m hs' _ => hs'
  · exact fun _ _ => trivial

theorem reads_funDecl {keyword : Token} {d : FunctionDecl} {w : List Token}
    {es : List GrammarError} (hkind : keyword.kind = .kwFun)
    (ih : ReadsStmt exact (.function d) w es) :
    ReadsStmt exact (.declaration (.function d)) (keyword :: w) es := by
  intro n
  refine .succ (reads_recovering (.peek ?_))
  simp only [hkind]
  refine .advance (by rw [hkind]; decide) (((ih n .function).before ?_).bind_pure ?_)
  · exact fun _ _ => trivial
  · intro d' m hd' hexact hclean
    obtain ⟨rfl, rfl⟩ := hd' hexact hclean
    exact ⟨rfl, rfl⟩

theorem reads_plain {ending : Ending} {s : Stmt} {w : List Token} {es : List GrammarError}
    (hstarts : StartsWith statementStarts w) (ih : ReadsStmt exact (.statement ending s) w es) :
    ReadsStmt exact (.declaration s) w es := by
  intro n
  have hread := (ih n).before fun kind hkind _ => hkind
  obtain ⟨t, w, rfl, hkind⟩ := hstarts
  refine .succ (reads_recovering (.peek ?_))
  generalize t.kind = kind at hkind ⊢
  cases kind <;> first | exact hread | exact absurd hkind (by decide)

theorem reads_function {name leftParen rightParen opening closing : Token}
    {parameters : List Token} {body : List Stmt} {w₁ w₂ : List Token}
    {es₁ es₂ : List GrammarError} (hname : name.kind = .identifier)
    (hleft : leftParen.kind = .leftParen)
    (hparameters : Relaxed.OptionalParameters parameters w₁ es₁)
    (hright : rightParen.kind = .rightParen) (hopening : opening.kind = .leftBrace)
    (hclosing : closing.kind = .rightBrace) (ih : ReadsStmt exact (.declarations body) w₂ es₂) :
    ReadsStmt exact (.function ⟨name, parameters, body⟩)
      (name :: leftParen :: (w₁ ++ rightParen :: opening :: (w₂ ++ [closing]))) (es₁ ++ es₂) := by
  intro n kind
  have hbody := reads_body ih hclosing n
  refine .succ (.name hname (.mark hleft (by decide) ?_))
  cases hparameters with
  | absent =>
    refine .peek ?_
    simp only [hright, if_true, pure_bind]
    refine .mark hright (by decide) (.mark hopening (by decide) (hbody.bind_pure ?_))
    intro body' m hbody' hexact hclean
    obtain ⟨rfl, rfl⟩ := hbody' hexact hclean
    exact ⟨rfl, rfl⟩
  | present hnames =>
    obtain ⟨t, w, rfl, hkind⟩ := hnames.starts
    have ht : t.kind ≠ .rightParen := fun heq => absurd (heq ▸ hkind) (by decide)
    refine .peek ?_
    simp only [if_neg ht]
    refine (reads_parameters hnames).bind (fun _ _ => hright) ?_
    rintro _ _ ⟨rfl, rfl⟩
    refine .mark hright (by decide) (.mark hopening (by decide) (hbody.bind_pure ?_))
    intro body' m hbody' hexact hclean
    obtain ⟨rfl, rfl⟩ := hbody' hexact (List.append_eq_nil_iff.mp hclean).2
    exact ⟨rfl, rfl⟩

theorem reads_functionsEnd : ReadsStmt exact (.functions []) [] [] := by
  intro n
  refine .succ (.congr (p := fun _ => pure []) (.pure fun _ _ => ⟨rfl, rfl⟩)
    fun fuel rest errors hnext => ?_)
  have hahead : (State.mk rest errors n).ahead.kind ∈ [TokenKind.rightBrace, .eof] := by
    change nextKind rest ∈ _
    rw [hnext]
    decide
  rw [List.nil_append, methods, peek_bind, if_pos hahead]

theorem reads_functionsMore {d : FunctionDecl} {ds : List FunctionDecl} {w₁ w₂ : List Token}
    {es₁ es₂ : List GrammarError} (hstarts : StartsWith [.identifier] w₁)
    (ih : ReadsStmt exact (.function d) w₁ es₁) (ih' : ReadsStmt exact (.functions ds) w₂ es₂) :
    ReadsStmt exact (.functions (d :: ds)) (w₁ ++ w₂) (es₁ ++ es₂) := by
  intro n
  have hfirst := ih n .method
  obtain ⟨t, w, rfl, hkind⟩ := hstarts
  rw [List.mem_singleton] at hkind
  have hgoes : t.kind ∉ [TokenKind.rightBrace, .eof] := by
    rw [hkind]
    decide
  refine .succ (ReadsFrom.peek ?_)
  simp only [if_neg hgoes]
  refine hfirst.bind (fun _ _ => trivial) fun d' m hd' => (ih' m).bind_pure ?_
  intro ds' k hds' hexact hclean
  obtain ⟨hclean₁, hclean₂⟩ := List.append_eq_nil_iff.mp hclean
  obtain ⟨rfl, rfl⟩ := hd' hexact hclean₁
  obtain ⟨rfl, rfl⟩ := hds' hexact hclean₂
  exact ⟨rfl, by rw [Nat.add_assoc]; rfl⟩

/-- The body of a class, from its opening brace on. -/
theorem reads_classBody {name opening closing : Token} {superclass : Option Occurrence}
    {ds : List FunctionDecl} {w : List Token} {es : List GrammarError} {m : NodeId}
    (hm : m = n + Occurrence.drawnIn? superclass)
    (hopening : opening.kind = .leftBrace) (hclosing : closing.kind = .rightBrace)
    (ih : ReadsStmt exact (.functions ds) w es) :
    ReadsFrom m
      (fun fuel => do
        expectMark .leftBrace .beforeClassBody
        let body ← methods fuel
        expectMark .rightBrace .afterClassBody
        return Stmt.class name (Occurrence.numberedIn? n superclass) body)
      (opening :: (w ++ [closing])) es (fun _ => True)
      (fun s' k => exact → es = [] → s' = (Stmt.class name superclass ds).numbered n ∧
        k = n + (Stmt.class name superclass ds).drawn) := by
  refine .mark hopening (by decide) (ReadsFrom.snoc (ih m) hclosing fun ds' k hds' => ?_)
  refine .mark hclosing (by decide) (.pure fun hexact hclean => ?_)
  obtain ⟨rfl, rfl⟩ := hds' hexact hclean
  rw [hm, Nat.add_assoc]
  exact ⟨rfl, rfl⟩

theorem reads_classDecl {keyword name opening closing : Token} {superclass : Option Occurrence}
    {ds : List FunctionDecl} {w₁ w₂ : List Token} {es : List GrammarError}
    (hkind : keyword.kind = .kwClass) (hname : name.kind = .identifier)
    (hsuper : Superclass superclass w₁) (hopening : opening.kind = .leftBrace)
    (hclosing : closing.kind = .rightBrace) (ih : ReadsStmt exact (.functions ds) w₂ es) :
    ReadsStmt exact (.declaration (.class name superclass ds))
      (keyword :: name :: (w₁ ++ opening :: (w₂ ++ [closing]))) es := by
  intro n
  -- The keyword and the name come first; a superclass takes an identity for its occurrence.
  refine .succ (reads_recovering (.peek ?_))
  simp only [hkind]
  refine .advance (by rw [hkind]; decide) (.succ (.name hname ?_))
  cases hsuper with
  -- No `<` stands behind the name, so none is accepted.
  | absent =>
    have hbody := @reads_classBody n exact name opening closing none ds w₂ es n rfl hopening
      hclosing ih
    refine .accept_none (fun rest _ => ?_) ?_
    · rw [nextKind, List.nil_append, List.cons_append, List.headD_cons, hopening]
      decide
    · simp only [pure_bind]
      exact hbody.before fun _ _ => trivial
  | @present id less parent hless hparent =>
    have hbody := @reads_classBody n exact name opening closing (some ⟨id, parent⟩) ds w₂ es
      (n + 1) rfl hopening hclosing ih
    refine .accept hless (by decide) ?_
    have hplace : ReadsFrom n (fun _ => some <$> (expectName .superclassName >>= occurrence))
        [parent] [] (fun _ => True) (fun found m => found = some ⟨n, parent⟩ ∧ m = n + 1) := by
      intro rest errors _
      have hrun : (expectName .superclassName >>= occurrence) ⟨parent :: rest, errors, n⟩ =
          .ok ⟨n, parent⟩ ⟨rest, errors, n + 1⟩ := bind_of_ok (expectName_cons hparent)
      refine ⟨some ⟨n, parent⟩, n + 1, .const ?_, rfl, rfl⟩
      rw [List.append_nil]
      exact map_of_ok hrun
    refine hplace.bind (fun _ _ => trivial) ?_
    rintro _ _ ⟨rfl, rfl⟩
    exact hbody.before fun _ _ => trivial

/-! ### Statements -/

theorem reads_exprStmt {s : Stmt} {w : List Token} {es : List GrammarError}
    (h : Relaxed.ExprStmt s w es) : ReadsStmt exact (.statement .closed s) w es := by
  intro n
  have hread : ReadsFrom n expressionStatement w es
      (fun kind => Ending.closed = .opened → kind ≠ .kwElse)
      (fun s' m => exact → es = [] → s' = s.numbered n ∧ m = n + s.drawn) :=
    ((reads_expressionStatement h).before fun _ _ => trivial).imp fun _ _ hs' _ => hs'
  obtain ⟨t, w, rfl, hkind⟩ := h.starts
  refine .succ (ReadsFrom.peek ?_)
  generalize t.kind = kind at hkind ⊢
  cases kind <;> first | exact hread | exact absurd hkind (by decide)

/-- The tree of a `for` loop, with the identities in the order of its clauses. -/
theorem numbered_forTree (n : Nat) (initializer : Option Stmt) (condition increment : Option Expr)
    (body : Stmt) :
    (forTree initializer condition increment body).numbered n =
      forLoop (initializer.map (Stmt.numbered n))
        (Expr.numberedIn? (n + drawnInitializer initializer) condition)
        (Expr.numberedIn? (n + drawnInitializer initializer + Expr.drawnIn? condition) increment)
        (body.numbered (n + drawnInitializer initializer + Expr.drawnIn? condition +
          Expr.drawnIn? increment)) := by
  cases initializer <;> cases condition <;> rfl

theorem drawn_forTree (initializer : Option Stmt) (condition increment : Option Expr)
    (body : Stmt) :
    (forTree initializer condition increment body).drawn =
      drawnInitializer initializer + Expr.drawnIn? condition + Expr.drawnIn? increment +
        body.drawn := by
  cases initializer with
  | none => cases condition <;> simp [forTree, Stmt.drawn, drawnInitializer, Expr.drawnIn?, Expr.drawn]
  | some first =>
    cases condition <;>
      simp [forTree, Stmt.drawn, Stmt.drawnEach, drawnInitializer, Expr.drawnIn?, Expr.drawn,
        Nat.add_assoc]

theorem reads_forStmt {keyword leftParen semicolon rightParen : Token}
    {initializer : Option Stmt} {condition increment : Option Expr} {ending : Ending} {body : Stmt}
    {w₁ w₂ w₃ w₄ : List Token} {es₁ es₂ es₃ es₄ : List GrammarError}
    (hkind : keyword.kind = .kwFor) (hleft : leftParen.kind = .leftParen)
    (hinit : Relaxed.ForInit initializer w₁ es₁)
    (hcondition : Relaxed.OptionalExpr condition w₂ es₂) (hsemi : semicolon.kind = .semicolon)
    (hincrement : Relaxed.OptionalExpr increment w₃ es₃) (hright : rightParen.kind = .rightParen) (ih : ReadsStmt exact (.statement ending body) w₄ es₄) :
    ReadsStmt exact (.statement ending (forTree initializer condition increment body))
      (keyword :: leftParen :: (w₁ ++ (w₂ ++ semicolon :: (w₃ ++ rightParen :: w₄))))
      (es₁ ++ (es₂ ++ (es₃ ++ es₄))) := by
  intro n
  refine .succ (.peek ?_)
  simp only [hkind]
  refine .advance (by rw [hkind]; decide) (.mark hleft (by decide) ?_)
  refine (reads_forInitializer hinit).bind (fun _ _ => trivial) fun initializer' n₁ hinitializer => ?_
  refine (reads_optionalExpression hcondition .semicolon (by decide)).bind
    (fun _ _ => hsemi) fun condition' n₂ hcondition' => ?_
  refine .mark hsemi (by decide) ?_
  refine (reads_optionalExpression hincrement .rightParen (by decide)).bind
    (fun _ _ => hright) fun increment' n₃ hincrement' => ?_
  refine .mark hright (by decide) ((ih n₃).bind_pure fun body' n₄ hbody hexact hclean => ?_)
  simp only [List.append_eq_nil_iff] at hclean
  obtain ⟨rfl, rfl⟩ := hinitializer hclean.1
  obtain ⟨rfl, rfl⟩ := hcondition' hclean.2.1
  obtain ⟨rfl, rfl⟩ := hincrement' hclean.2.2.1
  obtain ⟨rfl, rfl⟩ := hbody hexact hclean.2.2.2
  rw [drawn_forTree]
  refine ⟨(numbered_forTree n initializer condition increment body).symm, ?_⟩
  simp only [Nat.add_assoc]

/-- A condition in parentheses behind its keyword, and what hangs on it. -/
theorem reads_conditioned {leftParen rightParen : Token} {condition : Expr} {w₁ w₂ : List Token}
    {es₁ es₂ : List GrammarError} {behind : TokenKind → Prop} {post : Stmt → NodeId → Prop}
    {place place' : Place} {q : Nat → Expr → Parser Stmt}
    (hleft : leftParen.kind = .leftParen)
    (hcondition : Relaxed.ExprDerives (.expression condition) w₁ es₁)
    (hright : rightParen.kind = .rightParen)
    (hq : ∀ condition' m, (es₁ = [] → condition' = condition.numbered n ∧ m = n + condition.drawn) →
      ReadsFrom m (fun fuel => q fuel condition') w₂ es₂ behind post) :
    ReadsFrom n
      (fun fuel => do
        expectMark .leftParen place
        let condition ← expression fuel
        expectMark .rightParen place'
        q fuel condition)
      (leftParen :: (w₁ ++ rightParen :: w₂)) (es₁ ++ es₂) behind post := by
  refine .mark hleft (by decide) ((readsExpr hcondition n).bind ?_ fun condition' m h => ?_)
  · intro rest _
    change rightParen.kind ∈ _
    rw [hright]
    decide
  · exact .mark hright (by decide) (hq condition' m fun hclean => h.exact hclean)

theorem reads_ifStmt {keyword leftParen rightParen : Token} {condition : Expr} {ending : Ending}
    {thenBranch : Stmt} {w₁ w₂ : List Token} {es₁ es₂ : List GrammarError}
    (hkind : keyword.kind = .kwIf) (hleft : leftParen.kind = .leftParen)
    (hcondition : Relaxed.ExprDerives (.expression condition) w₁ es₁)
    (hright : rightParen.kind = .rightParen)
    (ih : ReadsStmt exact (.statement ending thenBranch) w₂ es₂) :
    ReadsStmt exact (.statement .opened (.conditional condition thenBranch none))
      (keyword :: leftParen :: (w₁ ++ rightParen :: w₂)) (es₁ ++ es₂) := by
  intro n
  refine .succ (.peek ?_)
  simp only [hkind]
  refine .advance (by rw [hkind]; decide) (reads_conditioned hleft hcondition hright ?_)
  intro condition' n₁ hcondition'
  refine (ih n₁).last (fun _ h _ => h trivial) fun branch n₂ hbranch => ?_
  refine .accept_none (fun _ h => h trivial) (.pure fun hexact hclean => ?_)
  obtain ⟨hclean₁, hclean₂⟩ := List.append_eq_nil_iff.mp hclean
  obtain ⟨rfl, rfl⟩ := hcondition' hclean₁
  obtain ⟨rfl, rfl⟩ := hbranch hexact hclean₂
  rw [Stmt.drawn, Nat.add_assoc]
  exact ⟨rfl, rfl⟩

theorem reads_ifElseStmt {keyword leftParen rightParen kwElse : Token} {condition : Expr}
    {elseEnding : Ending} {thenBranch elseBranch : Stmt} {w₁ w₂ w₃ : List Token}
    {es₁ es₂ es₃ : List GrammarError} (hkind : keyword.kind = .kwIf)
    (hleft : leftParen.kind = .leftParen)
    (hcondition : Relaxed.ExprDerives (.expression condition) w₁ es₁)
    (hright : rightParen.kind = .rightParen)
    (ih : ReadsStmt exact (.statement .closed thenBranch) w₂ es₂) (hkwElse : kwElse.kind = .kwElse)
    (ih' : ReadsStmt exact (.statement elseEnding elseBranch) w₃ es₃) :
    ReadsStmt exact (.statement elseEnding (.conditional condition thenBranch (some elseBranch)))
      (keyword :: leftParen :: (w₁ ++ rightParen :: (w₂ ++ kwElse :: w₃)))
      (es₁ ++ (es₂ ++ es₃)) := by
  intro n
  refine .succ (.peek ?_)
  simp only [hkind]
  refine .advance (by rw [hkind]; decide) (reads_conditioned hleft hcondition hright ?_)
  intro condition' n₁ hcondition'
  refine (ih n₁).bind (fun _ _ h => absurd h (by decide)) fun thenBranch' n₂ hthen => ?_
  refine .accept hkwElse (by decide) ((ih' n₂).bind_pure fun elseBranch' n₃ helse hexact hclean => ?_)
  simp only [List.append_eq_nil_iff] at hclean
  obtain ⟨rfl, rfl⟩ := hcondition' hclean.1
  obtain ⟨rfl, rfl⟩ := hthen hexact hclean.2.1
  obtain ⟨rfl, rfl⟩ := helse hexact hclean.2.2
  exact ⟨rfl, by rw [Stmt.drawn, ← Nat.add_assoc, ← Nat.add_assoc]⟩

theorem reads_whileStmt {keyword leftParen rightParen : Token} {condition : Expr}
    {ending : Ending} {body : Stmt} {w₁ w₂ : List Token} {es₁ es₂ : List GrammarError}
    (hkind : keyword.kind = .kwWhile) (hleft : leftParen.kind = .leftParen)
    (hcondition : Relaxed.ExprDerives (.expression condition) w₁ es₁)
    (hright : rightParen.kind = .rightParen)
    (ih : ReadsStmt exact (.statement ending body) w₂ es₂) :
    ReadsStmt exact (.statement ending (.loop condition body none))
      (keyword :: leftParen :: (w₁ ++ rightParen :: w₂)) (es₁ ++ es₂) := by
  intro n
  refine .succ (.peek ?_)
  simp only [hkind]
  refine .advance (by rw [hkind]; decide) (reads_conditioned hleft hcondition hright ?_)
  intro condition' n₁ hcondition'
  refine (ih n₁).bind_pure fun body' n₂ hbody hexact hclean => ?_
  obtain ⟨hclean₁, hclean₂⟩ := List.append_eq_nil_iff.mp hclean
  obtain ⟨rfl, rfl⟩ := hcondition' hclean₁
  obtain ⟨rfl, rfl⟩ := hbody hexact hclean₂
  rw [Stmt.drawn, Nat.add_assoc]
  exact ⟨rfl, rfl⟩

theorem reads_returnStmt {keyword semicolon : Token} {value : Option Expr} {w : List Token}
    {es : List GrammarError} (hkind : keyword.kind = .kwReturn)
    (hvalue : Relaxed.OptionalExpr value w es) (hsemi : semicolon.kind = .semicolon) :
    ReadsStmt exact (.statement .closed (.returning keyword value))
      (keyword :: (w ++ [semicolon])) es := by
  intro n
  refine .succ (.peek ?_)
  simp only [hkind]
  refine .advance (by rw [hkind]; decide) ?_
  refine ReadsFrom.snoc (reads_optionalExpression hvalue .semicolon (by decide)) hsemi
    fun value' m hvalue' => ?_
  refine .mark hsemi (by decide) (.pure fun _ hclean => ?_)
  obtain ⟨rfl, rfl⟩ := hvalue' hclean
  exact ⟨rfl, rfl⟩

theorem reads_breakStmt {keyword semicolon : Token} (hkind : keyword.kind = .kwBreak)
    (hsemi : semicolon.kind = .semicolon) :
    ReadsStmt exact (.statement .closed (.breaking keyword)) [keyword, semicolon] [] := by
  intro n
  refine .succ (.peek ?_)
  simp only [hkind]
  exact .advance (by rw [hkind]; decide) (.mark hsemi (by decide) (.pure fun _ _ => ⟨rfl, rfl⟩))

theorem reads_continueStmt {keyword semicolon : Token} (hkind : keyword.kind = .kwContinue)
    (hsemi : semicolon.kind = .semicolon) :
    ReadsStmt exact (.statement .closed (.continuing keyword)) [keyword, semicolon] [] := by
  intro n
  refine .succ (.peek ?_)
  simp only [hkind]
  exact .advance (by rw [hkind]; decide) (.mark hsemi (by decide) (.pure fun _ _ => ⟨rfl, rfl⟩))

theorem reads_block {opening closing : Token} {body : List Stmt} {w : List Token}
    {es : List GrammarError} (hopening : opening.kind = .leftBrace)
    (hclosing : closing.kind = .rightBrace) (ih : ReadsStmt exact (.declarations body) w es) :
    ReadsStmt exact (.statement .closed (.block body)) (opening :: (w ++ [closing])) es := by
  intro n
  refine .succ (.peek ?_)
  simp only [hopening]
  refine .advance (by rw [hopening]; decide) (((reads_body ih hclosing n).before ?_).bind_pure ?_)
  · exact fun _ _ => trivial
  · intro body' m hbody hexact hclean
    obtain ⟨rfl, rfl⟩ := hbody hexact hclean
    exact ⟨rfl, rfl⟩

theorem noElse_declarations {attachment : Attachment} {ss : List Stmt} {w : List Token}
    {es : List GrammarError} (h : Relaxed.StmtDerives attachment (.declarations ss) w es) :
    NoElse w := by
  cases h with
  | declarationsEnd => exact noElse_nil
  | declarationsMore hfirst _ => exact noElse_of_startsWith hfirst.declaration_starts (by decide)

/-- The parser reads every statement that gives each `else` to the nearest `if`. -/
theorem readsStmt {phrase : StmtPhrase} {w : List Token} {es : List GrammarError}
    (h : Relaxed.StmtDerives .nearest phrase w es) : ReadsStmt True phrase w es := by
  induction h with
  | classDecl hkind hname hsuper hopening _ hclosing ih =>
    exact reads_classDecl hkind hname hsuper hopening hclosing ih
  | funDecl hkind _ ih => exact reads_funDecl hkind ih
  | varDecl hvar => exact reads_varDecl hvar
  | plain h ih => exact reads_plain h.statement_starts ih
  | declarationsEnd => exact reads_declarationsEnd
  | declarationsMore h h' ih ih' =>
    exact reads_declarationsMore h.declaration_starts (noElse_declarations h') ih ih'
  | function hname hleft hparameters hright hopening _ hclosing ih =>
    exact reads_function hname hleft hparameters hright hopening hclosing ih
  | functionsEnd => exact reads_functionsEnd
  | functionsMore h _ ih ih' => exact reads_functionsMore h.function_starts ih ih'
  | exprStmt he => exact reads_exprStmt he
  | forStmt hkind hleft hinit hcondition hsemi hincrement hright _ ih =>
    exact reads_forStmt hkind hleft hinit hcondition hsemi hincrement hright ih
  | ifStmt hkind hleft hcondition hright _ ih =>
    exact reads_ifStmt hkind hleft hcondition hright ih
  | ifElseStmt hkind hleft hcondition hright _ hending hkwElse _ ih ih' =>
    rw [hending rfl] at ih
    exact reads_ifElseStmt hkind hleft hcondition hright ih hkwElse ih'
  | returnStmt hkind hvalue hsemi => exact reads_returnStmt hkind hvalue hsemi
  | whileStmt hkind hleft hcondition hright _ ih =>
    exact reads_whileStmt hkind hleft hcondition hright ih
  | breakStmt hkind hsemi => exact reads_breakStmt hkind hsemi
  | continueStmt hkind hsemi => exact reads_continueStmt hkind hsemi
  | block hopening _ hclosing ih => exact reads_block hopening hclosing ih

end Lox.Parser
