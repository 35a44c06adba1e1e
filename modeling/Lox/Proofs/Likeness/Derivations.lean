import Lox.Proofs.Grammar
import Lox.Proofs.Likeness.Code

/-!
# Derivations of trees that look alike

If a tree is derived from tokens, then a tree that looks like it is derived from tokens
that correspond one by one.  It is enough that tokens that correspond are of one kind,
and that a token which the tree does not hold, such as a parenthesis, corresponds to one
with the same text.  What the text of a semicolon is does not matter: no tree holds one.
-/

namespace Lox

theorem ExprEachLike.length_eq {K : Likeness} {Γ : Surroundings} {es es' : List Expr}
    (h : ExprEachLike K Γ es es') : es'.length = es.length := by
  induction es generalizing es' with
  | nil =>
    cases h
    rfl
  | cons e es ih =>
    cases h with
    | cons _ hrest => rw [List.length_cons, List.length_cons, ih hrest]

namespace Grammar

/-- How the tokens correspond from which trees that look alike are derived. -/
structure Respelling (K : Likeness) (R : Token → Token → Prop) : Prop where
  kind : ∀ t t', R t t' → t'.kind = t.kind
  counterpart : ∀ t, ∃ t', R t t' ∧ (t.kind ≠ .semicolon → t'.lexeme = t.lexeme)
  token : ∀ t t', t.kind ≠ .semicolon → K.token t t' → R t t'
  binder : ∀ σ t t', t.kind ≠ .semicolon → K.binder σ t t' → R t t'
  place : ∀ Γ p p', p.token.kind ≠ .semicolon → K.place Γ p p' → R p.token p'.token

section

variable (K : Likeness) (R : Token → Token → Prop) (Γ : Surroundings)

/-- Trees that look like `e` are derived, as phrases of one sort, from tokens that correspond to `w`. -/
def Carries (phrase : Expr → ExprPhrase) (e : Expr) (w : List Token) : Prop :=
  ∀ e', ExprLike K Γ e e' → ∃ w', List.Forall₂ R w w' ∧ ExprDerives (phrase e') w'

/-- The same of what an operand becomes; the operand is part of the tree that it becomes. -/
def CarriesRest (phrase : Expr → Expr → ExprPhrase) (operand e : Expr) (w : List Token) : Prop :=
  ∀ e', ExprLike K Γ e e' → ∃ operand' w', ExprLike K Γ operand operand' ∧ List.Forall₂ R w w' ∧
    ExprDerives (phrase operand' e') w'

/-- Whatever looks like the tree of a phrase is derived from tokens that correspond. -/
def ExprPhrase.Carried : ExprPhrase → List Token → Prop
  | .expression e, w => Carries K R Γ .expression e w
  | .binary rule e, w => Carries K R Γ (.binary rule) e w
  | .binaryRest rule left e, w => CarriesRest K R Γ (.binaryRest rule) left e w
  | .unary e, w => Carries K R Γ .unary e w
  | .call e, w => Carries K R Γ .call e w
  | .callRest callee e, w => CarriesRest K R Γ .callRest callee e w
  | .arguments es, w => ∀ es', ExprEachLike K Γ es es' →
    ∃ w', List.Forall₂ R w w' ∧ ExprDerives (.arguments es') w'
  | .primary e, w => Carries K R Γ .primary e w

end

variable {K : Likeness} {R : Token → Token → Prop} {Γ : Surroundings}

theorem Respelling.mark (hR : Respelling K R) (t : Token) :
    ∃ t', R t t' ∧ t'.kind = t.kind ∧ (t.kind ≠ .semicolon → t'.lexeme = t.lexeme) := by
  obtain ⟨t', ht, hlexeme⟩ := hR.counterpart t
  exact ⟨t', ht, hR.kind t t' ht, hlexeme⟩

/-- A token that no tree holds corresponds to one of the same kind. -/
theorem Respelling.fixed (hR : Respelling K R) {t : Token} {kind : TokenKind}
    (hkind : t.kind = kind) : ∃ t', R t t' ∧ t'.kind = kind := by
  obtain ⟨t', ht, hsame, -⟩ := hR.mark t
  exact ⟨t', ht, hsame.trans hkind⟩

/-! A token that a tree holds corresponds to the one that a tree which looks like it holds. -/

theorem Respelling.token_of (hR : Respelling K R) {t t' : Token} {kind : TokenKind}
    (h : K.token t t') (hkind : t.kind = kind) (hmark : kind ≠ .semicolon) :
    R t t' ∧ t'.kind = kind := by
  have ht := hR.token t t' (hkind ▸ hmark) h
  exact ⟨ht, (hR.kind t t' ht).trans hkind⟩

theorem Respelling.binder_of (hR : Respelling K R) {σ : Renaming} {t t' : Token}
    {kind : TokenKind} (h : K.binder σ t t') (hkind : t.kind = kind) (hmark : kind ≠ .semicolon) :
    R t t' ∧ t'.kind = kind := by
  have ht := hR.binder σ t t' (hkind ▸ hmark) h
  exact ⟨ht, (hR.kind t t' ht).trans hkind⟩

theorem Respelling.place_of (hR : Respelling K R) {place place' : Occurrence} {kind : TokenKind}
    (h : K.place Γ place place') (hkind : place.token.kind = kind) (hmark : kind ≠ .semicolon) :
    R place.token place'.token ∧ place'.token.kind = kind := by
  have ht := hR.place Γ place place' (hkind ▸ hmark) h
  exact ⟨ht, (hR.kind place.token place'.token ht).trans hkind⟩

theorem BinaryRule.semicolon_notMem (rule : BinaryRule) : .semicolon ∉ rule.operators := by
  cases rule <;> decide

theorem ExprPhrase.Carried.operand {rule : BinaryRule} {e : Expr} {w : List Token}
    (h : (rule.operand e).Carried K R Γ w) : Carries K R Γ rule.operand e w := by
  cases rule <;> exact h

/-- What looks like a node for an operator is one. -/
theorem like_node {rule : BinaryRule} {left right e' : Expr} {operator : Token}
    (h : ExprLike K Γ (rule.node left operator right) e') :
    ∃ left' operator' right', e' = rule.node left' operator' right' ∧
      ExprLike K Γ left left' ∧ K.token operator operator' ∧ ExprLike K Γ right right' := by
  cases rule with
  | logicOr | logicAnd =>
    cases h with
    | logical hleft hoperator hright => exact ⟨_, _, _, rfl, hleft, hoperator, hright⟩
  | equality | comparison | term | factor =>
    cases h with
    | binary hleft hoperator hright => exact ⟨_, _, _, rfl, hleft, hoperator, hright⟩

/-- A literal looks like itself only, and its token keeps its text. -/
theorem Respelling.literal (hR : Respelling K R) {value : Literal} {t : Token}
    (hkind : t.kind ≠ .semicolon) (hderives : ∀ t' : Token, t'.kind = t.kind → t'.lexeme = t.lexeme →
      ExprDerives (.primary (.literal value)) [t']) :
    Carries K R Γ .primary (.literal value) [t] := by
  intro e' he
  cases he with
  | literal =>
    obtain ⟨t', ht, hkind', hlexeme⟩ := hR.mark t
    exact ⟨[t'], .cons ht .nil, hderives t' hkind' (hlexeme hkind)⟩

/-- Expressions that look alike are derived from tokens that correspond. -/
theorem ExprDerives.carried (hR : Respelling K R) {phrase : ExprPhrase} {w : List Token}
    (h : ExprDerives phrase w) : phrase.Carried K R Γ w := by
  -- Each token of a rule is either held by the tree, or of a kind that the rule fixes.
  induction h with
  | assign hname hequals _ ih =>
    intro e' he
    cases he with
    | @assign _ place' _ value' hplace hvalue =>
      obtain ⟨w', hw, hderives⟩ := ih value' hvalue
      obtain ⟨_, hequalsR, hequals'⟩ := hR.fixed hequals
      obtain ⟨hnameR, hname'⟩ := hR.place_of hplace hname nofun
      exact ⟨_, .cons hnameR (.cons hequalsR hw),
        .assign hname' hequals' hderives⟩
  -- Object and value come from the phrases; the dot and `=` are fixed, and the name is in the tree.
  | set _ hdot hname hequals _ ih₁ ih₂ =>
    intro e' he
    cases he with
    | set hobject hnameLike hvalue =>
      obtain ⟨w₁', hw₁, hderives₁⟩ := ih₁ _ hobject
      obtain ⟨w₂', hw₂, hderives₂⟩ := ih₂ _ hvalue
      obtain ⟨_, hdotR, hdot'⟩ := hR.fixed hdot
      obtain ⟨_, hequalsR, hequals'⟩ := hR.fixed hequals
      obtain ⟨hnameR, hname'⟩ := hR.token_of hnameLike hname nofun
      exact ⟨_, List.rel_append hw₁ (.cons hdotR (.cons hnameR (.cons hequalsR hw₂))),
        .set hderives₁ hdot' hname' hequals' hderives₂⟩
  | operation _ ih =>
    intro e' he
    obtain ⟨w', hw, hderives⟩ := ih e' he
    exact ⟨w', hw, .operation hderives⟩
  -- The operand is unknown until the rest is read back, which hands it over.
  | binary _ _ ih₁ ih₂ =>
    intro e' he
    obtain ⟨left', w₂', hleft, hw₂, hderives₂⟩ := ih₂ e' he
    obtain ⟨w₁', hw₁, hderives₁⟩ := ih₁.operand left' hleft
    exact ⟨_, List.rel_append hw₁ hw₂, .binary hderives₁ hderives₂⟩
  -- An empty rest gives its operand back as it is.
  | binaryEnd =>
    intro e' he
    exact ⟨e', [], he, .nil, .binaryEnd⟩
  -- What comes behind the operator looks like a node, so the operator and its operands can be told.
  | @binaryMore rule left right e operator w₁ w₂ hoperator _ _ ih₁ ih₂ =>
    intro e' he
    obtain ⟨joined', w₂', hjoined, hw₂, hderives₂⟩ := ih₂ e' he
    obtain ⟨left', operator', right', rfl, hleft, hoperatorLike, hright⟩ := like_node hjoined
    obtain ⟨w₁', hw₁, hderives₁⟩ := ih₁.operand right' hright
    have hmark : operator.kind ≠ .semicolon :=
      fun hkind => rule.semicolon_notMem (hkind ▸ hoperator)
    have hoperatorR := hR.token _ _ hmark hoperatorLike
    have hrule := (hR.kind _ _ hoperatorR).symm ▸ hoperator
    exact ⟨left', _, hleft, .cons hoperatorR (List.rel_append hw₁ hw₂),
      .binaryMore hrule hderives₁ hderives₂⟩
  | @prefixed operator e w hoperator _ ih =>
    intro e' he
    cases he with
    | unary hoperatorLike hoperand =>
      obtain ⟨w', hw, hderives⟩ := ih _ hoperand
      have hmark : operator.kind ≠ .semicolon := by
        rcases hoperator with hkind | hkind <;> simp [hkind]
      have hoperatorR := hR.token _ _ hmark hoperatorLike
      have hrule := (hR.kind _ _ hoperatorR).symm ▸ hoperator
      exact ⟨_, .cons hoperatorR hw, .prefixed hrule hderives⟩
  | unprefixed _ ih =>
    intro e' he
    obtain ⟨w', hw, hderives⟩ := ih e' he
    exact ⟨w', hw, .unprefixed hderives⟩
  -- As for operators: what is called is known once the calls behind it are.
  | call _ _ ih₁ ih₂ =>
    intro e' he
    obtain ⟨callee', w₂', hcallee, hw₂, hderives₂⟩ := ih₂ e' he
    obtain ⟨w₁', hw₁, hderives₁⟩ := ih₁ callee' hcallee
    exact ⟨_, List.rel_append hw₁ hw₂, .call hderives₁ hderives₂⟩
  | callEnd =>
    intro e' he
    exact ⟨e', [], he, .nil, .callEnd⟩
  -- Without arguments the list in the tree is empty on both sides.
  | callEmpty hopening hclosing _ ih =>
    intro e' he
    obtain ⟨called', w', hcalled, hw, hderives⟩ := ih e' he
    cases hcalled with
    | call hcallee hparen harguments =>
      cases harguments
      obtain ⟨_, hopeningR, hopening'⟩ := hR.fixed hopening
      obtain ⟨hclosingR, hclosing'⟩ := hR.token_of hparen hclosing nofun
      exact ⟨_, _, hcallee, .cons hopeningR (.cons hclosingR hw),
        .callEmpty hopening' hclosing' hderives⟩
  -- The limit of the list is kept, since both lists have the same length.
  | callWith hopening _ hlength hclosing _ ih₁ ih₂ =>
    intro e' he
    obtain ⟨called', w₂', hcalled, hw₂, hderives₂⟩ := ih₂ e' he
    cases hcalled with
    | call hcallee hparen harguments =>
      obtain ⟨w₁', hw₁, hderives₁⟩ := ih₁ _ harguments
      obtain ⟨_, hopeningR, hopening'⟩ := hR.fixed hopening
      obtain ⟨hclosingR, hclosing'⟩ := hR.token_of hparen hclosing nofun
      exact ⟨_, _, hcallee, .cons hopeningR (List.rel_append hw₁ (.cons hclosingR hw₂)),
        .callWith hopening' hderives₁ (harguments.length_eq ▸ hlength) hclosing' hderives₂⟩
  | property hdot hname _ ih =>
    intro e' he
    obtain ⟨got', w', hgot, hw, hderives⟩ := ih e' he
    cases hgot with
    | get hcallee hnameLike =>
      obtain ⟨_, hdotR, hdot'⟩ := hR.fixed hdot
      obtain ⟨hnameR, hname'⟩ := hR.token_of hnameLike hname nofun
      exact ⟨_, _, hcallee, .cons hdotR (.cons hnameR hw),
        .property hdot' hname' hderives⟩
  | argument _ ih =>
    intro es' hes
    cases hes with
    | cons he hrest =>
      cases hrest
      obtain ⟨w', hw, hderives⟩ := ih _ he
      exact ⟨w', hw, .argument hderives⟩
  | argumentsMore _ hcomma _ ih₁ ih₂ =>
    intro es' hes
    cases hes with
    | cons he hrest =>
      obtain ⟨w₁', hw₁, hderives₁⟩ := ih₁ _ he
      obtain ⟨w₂', hw₂, hderives₂⟩ := ih₂ _ hrest
      obtain ⟨_, hcommaR, hcomma'⟩ := hR.fixed hcomma
      exact ⟨_, List.rel_append hw₁ (.cons hcommaR hw₂),
        .argumentsMore hderives₁ hcomma' hderives₂⟩
  -- The value of a number is read off its text, which a mark or a numeral keeps.
  | number ht =>
    apply hR.literal (by simp [ht])
    intro t' hkind hlexeme
    rw [← hlexeme]
    exact .number (hkind.trans ht)
  -- The same holds of the content of a string.
  | @string t ht =>
    apply hR.literal (by simp [ht])
    intro t' hkind hlexeme
    have hcontent : t.content = t'.content := by rw [Token.content, Token.content, hlexeme]
    rw [hcontent]
    exact .string (hkind.trans ht)
  | kwTrue ht => exact hR.literal (by simp [ht]) fun t' hkind _ => .kwTrue (hkind.trans ht)
  | kwFalse ht => exact hR.literal (by simp [ht]) fun t' hkind _ => .kwFalse (hkind.trans ht)
  | kwNil ht => exact hR.literal (by simp [ht]) fun t' hkind _ => .kwNil (hkind.trans ht)
  -- `this` and names are looked up, so they correspond as places do.
  | kwThis ht =>
    intro e' he
    cases he with
    | this hplace =>
      obtain ⟨htR, ht'⟩ := hR.place_of hplace ht nofun
      exact ⟨_, .cons htR .nil, .kwThis ht'⟩
  | name ht =>
    intro e' he
    cases he with
    | read hplace =>
      obtain ⟨htR, ht'⟩ := hR.place_of hplace ht nofun
      exact ⟨_, .cons htR .nil, .name ht'⟩
  | group hopening _ hclosing ih =>
    intro e' he
    cases he with
    | group hinner =>
      obtain ⟨w', hw, hderives⟩ := ih _ hinner
      obtain ⟨_, hopeningR, hopening'⟩ := hR.fixed hopening
      obtain ⟨_, hclosingR, hclosing'⟩ := hR.fixed hclosing
      exact ⟨_, .cons hopeningR (List.rel_append hw (.cons hclosingR .nil)),
        .group hopening' hderives hclosing'⟩
  | kwSuper hkeyword hdot hmethod =>
    intro e' he
    cases he with
    | super hplace hmethodLike =>
      obtain ⟨_, hdotR, hdot'⟩ := hR.fixed hdot
      obtain ⟨hkeywordR, hkeyword'⟩ := hR.place_of hplace hkeyword nofun
      obtain ⟨hmethodR, hmethod'⟩ := hR.token_of hmethodLike hmethod nofun
      exact ⟨_, .cons hkeywordR (.cons hdotR (.cons hmethodR .nil)),
        .kwSuper hkeyword' hdot' hmethod'⟩

theorem OptionalExpr.carried (hR : Respelling K R) {e : Option Expr} {w : List Token}
    (h : OptionalExpr e w) {e' : Option Expr} (he : ExprIn?Like K Γ e e') :
    ∃ w', List.Forall₂ R w w' ∧ OptionalExpr e' w' := by
  cases h with
  | absent =>
    cases he
    exact ⟨[], .nil, .absent⟩
  | present hderives =>
    cases he with
    | some he =>
      obtain ⟨w', hw, hderives'⟩ := hderives.carried hR _ he
      exact ⟨w', hw, .present hderives'⟩

/-! ### Statements -/

theorem ExprStmt.carried (hR : Respelling K R) {s s' : Stmt} {w : List Token} (h : ExprStmt s w)
    (hs : StmtLike K Γ s s') : ∃ w', List.Forall₂ R w w' ∧ ExprStmt s' w' := by
  cases h with
  | mk hderives hsemicolon =>
    cases hs with
    | expression he =>
      obtain ⟨w', hw, hderives'⟩ := hderives.carried hR _ he
      obtain ⟨_, hsemicolonR, hsemicolon'⟩ := hR.fixed hsemicolon
      exact ⟨_, List.rel_append hw (.cons hsemicolonR .nil), .mk hderives' hsemicolon'⟩

theorem VarDecl.carried (hR : Respelling K R) {s s' : Stmt} {w : List Token} (h : VarDecl s w)
    (hs : StmtLike K Γ s s') : ∃ w', List.Forall₂ R w w' ∧ VarDecl s' w' := by
  cases h with
  | plain hkeyword hname hsemicolon =>
    cases hs with
    | var hbinder hvalue =>
      cases hvalue
      obtain ⟨_, hkeywordR, hkeyword'⟩ := hR.fixed hkeyword
      obtain ⟨_, hsemicolonR, hsemicolon'⟩ := hR.fixed hsemicolon
      obtain ⟨hnameR, hname'⟩ := hR.binder_of hbinder hname nofun
      exact ⟨_, .cons hkeywordR (.cons hnameR (.cons hsemicolonR .nil)),
        .plain hkeyword' hname' hsemicolon'⟩
  | initialized hkeyword hname hequals hderives hsemicolon =>
    cases hs with
    | var hbinder hvalue =>
      cases hvalue with
      | some he =>
        obtain ⟨w', hw, hderives'⟩ := hderives.carried hR _ he
        obtain ⟨_, hkeywordR, hkeyword'⟩ := hR.fixed hkeyword
        obtain ⟨_, hequalsR, hequals'⟩ := hR.fixed hequals
        obtain ⟨_, hsemicolonR, hsemicolon'⟩ := hR.fixed hsemicolon
        obtain ⟨hnameR, hname'⟩ := hR.binder_of hbinder hname nofun
        exact ⟨_, .cons hkeywordR (.cons hnameR (.cons hequalsR
            (List.rel_append hw (.cons hsemicolonR .nil)))),
          .initialized hkeyword' hname' hequals' hderives' hsemicolon'⟩

/-- The first clause of a loop; the block around the loop has a scope of its own. -/
theorem ForInit.carried (hR : Respelling K R) {initializer initializer' : Option Stmt}
    {w : List Token} (h : ForInit initializer w)
    (hs : Option.Rel (StmtLike K Γ) initializer initializer') :
    ∃ w', List.Forall₂ R w w' ∧ ForInit initializer' w' := by
  cases h with
  | var hvar =>
    cases hs with
    | some hs =>
      obtain ⟨w', hw, hvar'⟩ := hvar.carried hR hs
      exact ⟨w', hw, .var hvar'⟩
  | expression hexpression =>
    cases hs with
    | some hs =>
      obtain ⟨w', hw, hexpression'⟩ := hexpression.carried hR hs
      exact ⟨w', hw, .expression hexpression'⟩
  | absent hsemicolon =>
    cases hs
    obtain ⟨_, hsemicolonR, hsemicolon'⟩ := hR.fixed hsemicolon
    exact ⟨_, .cons hsemicolonR .nil, .absent hsemicolon'⟩

theorem Parameters.carried (hR : Respelling K R) {σ : Renaming} {names w : List Token}
    (h : Parameters names w) {names' : List Token} (hnames : List.Forall₂ (K.binder σ) names names') :
    ∃ w', List.Forall₂ R w w' ∧ Parameters names' w' := by
  induction h generalizing names' with
  | one hname =>
    cases hnames with
    | cons hbinder hrest =>
      cases hrest
      obtain ⟨hnameR, hname'⟩ := hR.binder_of hbinder hname nofun
      exact ⟨_, .cons hnameR .nil, .one hname'⟩
  | more hname hcomma _ ih =>
    cases hnames with
    | cons hbinder hrest =>
      obtain ⟨w', hw, hparameters⟩ := ih hrest
      obtain ⟨_, hcommaR, hcomma'⟩ := hR.fixed hcomma
      obtain ⟨hnameR, hname'⟩ := hR.binder_of hbinder hname nofun
      exact ⟨_, .cons hnameR (.cons hcommaR hw),
        .more hname' hcomma' hparameters⟩

theorem OptionalParameters.carried (hR : Respelling K R) {σ : Renaming} {names w : List Token}
    (h : OptionalParameters names w) {names' : List Token}
    (hnames : List.Forall₂ (K.binder σ) names names') :
    ∃ w', List.Forall₂ R w w' ∧ OptionalParameters names' w' := by
  cases h with
  | absent =>
    cases hnames
    exact ⟨[], .nil, .absent⟩
  | present hparameters hlength =>
    obtain ⟨w', hw, hparameters'⟩ := hparameters.carried hR hnames
    exact ⟨w', hw, .present hparameters' (hnames.length_eq ▸ hlength)⟩

theorem Superclass.carried (hR : Respelling K R) {place place' : Option Occurrence}
    {w : List Token} (h : Superclass place w) (hplace : Option.Rel (K.place Γ) place place') :
    ∃ w', List.Forall₂ R w w' ∧ Superclass place' w' := by
  cases h with
  | absent =>
    cases hplace
    exact ⟨[], .nil, .absent⟩
  | present hless hname =>
    cases hplace with
    | some hplace =>
      obtain ⟨_, hlessR, hless'⟩ := hR.fixed hless
      obtain ⟨hnameR, hname'⟩ := hR.place_of hplace hname nofun
      exact ⟨_, .cons hlessR (.cons hnameR .nil),
        .present hless' hname'⟩

theorem like_loop {condition increment : Option Expr} {body s' : Stmt}
    (h : StmtLike K Γ (forTree none condition increment body) s') :
    ∃ condition' increment' body', s' = forTree none condition' increment' body' ∧
      ExprIn?Like K Γ condition condition' ∧ ExprIn?Like K Γ increment increment' ∧
      StmtLike K Γ body body' := by
  cases h with
  | @loop _ _ condition' _ body' _ increment' hcondition hbody hincrement =>
    cases condition with
    | none =>
      cases hcondition
      exact ⟨none, increment', body', rfl, .none, hincrement, hbody⟩
    | some condition =>
      exact ⟨some condition', increment', body', rfl, .some hcondition, hincrement, hbody⟩

/-- What looks like a `for` loop is one, with clauses that look alike. -/
theorem like_forTree {initializer : Option Stmt} {condition increment : Option Expr}
    {body s' : Stmt} (h : StmtLike K Γ (forTree initializer condition increment body) s') :
    ∃ Γ₁ initializer' condition' increment' body',
      s' = forTree initializer' condition' increment' body' ∧
      Option.Rel (StmtLike K Γ₁) initializer initializer' ∧
      ExprIn?Like K Γ₁ condition condition' ∧ ExprIn?Like K Γ₁ increment increment' ∧
      StmtLike K Γ₁ body body' := by
  cases initializer with
  | none =>
    obtain ⟨condition', increment', body', rfl, hparts⟩ := like_loop h
    exact ⟨Γ, none, condition', increment', body', rfl, .none, hparts⟩
  | some first =>
    cases h with
    | @block _ σ _ _ _ hbody =>
      cases hbody with
      | cons hfirst hrest =>
        cases hrest with
        | cons hloop hend =>
          cases hend
          obtain ⟨condition', increment', body', rfl, hparts⟩ := @like_loop _ _ condition _ _ _ hloop
          exact ⟨Γ.enter σ, some _, condition', increment', body', rfl, .some hfirst, hparts⟩

/-- Whatever looks like the tree of a phrase is derived from tokens that correspond. -/
def StmtPhrase.Carried (K : Likeness) (R : Token → Token → Prop) (attachment : Attachment) :
    StmtPhrase → List Token → Prop
  | .declaration s, w => ∀ Γ s', StmtLike K Γ s s' →
    ∃ w', List.Forall₂ R w w' ∧ StmtDerives attachment (.declaration s') w'
  | .declarations ss, w => ∀ Γ ss', StmtEachLike K Γ ss ss' →
    ∃ w', List.Forall₂ R w w' ∧ StmtDerives attachment (.declarations ss') w'
  | .function d, w => ∀ Γ d', FunctionLike K Γ d d' →
    ∃ w', List.Forall₂ R w w' ∧ StmtDerives attachment (.function d') w'
  | .functions ds, w => ∀ Γ ds', FunctionEachLike K Γ ds ds' →
    ∃ w', List.Forall₂ R w w' ∧ StmtDerives attachment (.functions ds') w'
  | .statement ending s, w => ∀ Γ s', StmtLike K Γ s s' →
    ∃ w', List.Forall₂ R w w' ∧ StmtDerives attachment (.statement ending s') w'

/-- Statements that look alike are derived from tokens that correspond. -/
theorem StmtDerives.carried (hR : Respelling K R) {attachment : Attachment} {phrase : StmtPhrase}
    {w : List Token} (h : StmtDerives attachment phrase w) : phrase.Carried K R attachment w := by
  -- The parts of the tree give texts by induction, and its own tokens correspond one by one.
  induction h with
  | classDecl hkeyword hname hsuperclass hopening _ hclosing ih =>
    intro Γ s' hs
    cases hs with
    | «class» _ hnameLike hplace hmethods =>
      obtain ⟨w₁', hw₁, hsuperclass'⟩ := hsuperclass.carried hR hplace
      obtain ⟨w₂', hw₂, hderives⟩ := ih _ _ hmethods
      obtain ⟨_, hkeywordR, hkeyword'⟩ := hR.fixed hkeyword
      obtain ⟨_, hopeningR, hopening'⟩ := hR.fixed hopening
      obtain ⟨_, hclosingR, hclosing'⟩ := hR.fixed hclosing
      obtain ⟨hnameR, hname'⟩ := hR.token_of hnameLike hname nofun
      exact ⟨_, .cons hkeywordR (.cons hnameR (List.rel_append hw₁ (.cons hopeningR
          (List.rel_append hw₂ (.cons hclosingR .nil))))),
        .classDecl hkeyword' hname' hsuperclass' hopening' hderives hclosing'⟩
  | funDecl hkeyword _ ih =>
    intro Γ s' hs
    cases hs with
    | function _ hd =>
      obtain ⟨w', hw, hderives⟩ := ih _ _ hd
      obtain ⟨_, hkeywordR, hkeyword'⟩ := hR.fixed hkeyword
      exact ⟨_, .cons hkeywordR hw, .funDecl hkeyword' hderives⟩
  -- Phrases that only pass a tree on pass its text on as well.
  | varDecl hvar =>
    intro Γ s' hs
    obtain ⟨w', hw, hvar'⟩ := hvar.carried hR hs
    exact ⟨w', hw, .varDecl hvar'⟩
  | plain _ ih =>
    intro Γ s' hs
    obtain ⟨w', hw, hderives⟩ := ih _ _ hs
    exact ⟨w', hw, .plain hderives⟩
  -- Lists look alike entry by entry, so their texts stand behind one another.
  | declarationsEnd =>
    intro Γ ss' hss
    cases hss
    exact ⟨[], .nil, .declarationsEnd⟩
  | declarationsMore _ _ ih₁ ih₂ =>
    intro Γ ss' hss
    cases hss with
    | cons hs hrest =>
      obtain ⟨w₁', hw₁, hderives₁⟩ := ih₁ _ _ hs
      obtain ⟨w₂', hw₂, hderives₂⟩ := ih₂ _ _ hrest
      exact ⟨_, List.rel_append hw₁ hw₂, .declarationsMore hderives₁ hderives₂⟩
  -- The name of a function is in the tree; its parameters are binders of the new scope.
  | function hname hleftParen hparameters hrightParen hopening _ hclosing ih =>
    intro Γ d' hd
    cases hd with
    | mk _ hnameLike hparametersLike hbody =>
      obtain ⟨w₁', hw₁, hparameters'⟩ := hparameters.carried hR hparametersLike
      obtain ⟨w₂', hw₂, hderives⟩ := ih _ _ hbody
      obtain ⟨_, hleftR, hleftParen'⟩ := hR.fixed hleftParen
      obtain ⟨_, hrightR, hrightParen'⟩ := hR.fixed hrightParen
      obtain ⟨_, hopeningR, hopening'⟩ := hR.fixed hopening
      obtain ⟨_, hclosingR, hclosing'⟩ := hR.fixed hclosing
      obtain ⟨hnameR, hname'⟩ := hR.token_of hnameLike hname nofun
      exact ⟨_, .cons hnameR (.cons hleftR (List.rel_append hw₁ (.cons hrightR (.cons hopeningR
          (List.rel_append hw₂ (.cons hclosingR .nil)))))),
        .function hname' hleftParen' hparameters' hrightParen' hopening' hderives hclosing'⟩
  | functionsEnd =>
    intro Γ ds' hds
    cases hds
    exact ⟨[], .nil, .functionsEnd⟩
  | functionsMore _ _ ih₁ ih₂ =>
    intro Γ ds' hds
    cases hds with
    | cons hd hrest =>
      obtain ⟨w₁', hw₁, hderives₁⟩ := ih₁ _ _ hd
      obtain ⟨w₂', hw₂, hderives₂⟩ := ih₂ _ _ hrest
      exact ⟨_, List.rel_append hw₁ hw₂, .functionsMore hderives₁ hderives₂⟩
  | exprStmt hexpression =>
    intro Γ s' hs
    obtain ⟨w', hw, hexpression'⟩ := hexpression.carried hR hs
    exact ⟨w', hw, .exprStmt hexpression'⟩
  -- The tree is a loop in a block, and its clauses are found there again.
  | forStmt hkeyword hleftParen hinit hcondition hsemicolon hincrement hrightParen _ ih =>
    intro Γ s' hs
    obtain ⟨Γ₁, initializer', condition', increment', body', rfl, hinitLike, hconditionLike,
      hincrementLike, hbody⟩ := like_forTree hs
    obtain ⟨w₁', hw₁, hinit'⟩ := hinit.carried hR hinitLike
    obtain ⟨w₂', hw₂, hcondition'⟩ := hcondition.carried hR hconditionLike
    obtain ⟨w₃', hw₃, hincrement'⟩ := hincrement.carried hR hincrementLike
    obtain ⟨w₄', hw₄, hderives⟩ := ih _ _ hbody
    obtain ⟨_, hkeywordR, hkeyword'⟩ := hR.fixed hkeyword
    obtain ⟨_, hleftR, hleftParen'⟩ := hR.fixed hleftParen
    obtain ⟨_, hsemicolonR, hsemicolon'⟩ := hR.fixed hsemicolon
    obtain ⟨_, hrightR, hrightParen'⟩ := hR.fixed hrightParen
    exact ⟨_, .cons hkeywordR (.cons hleftR (List.rel_append hw₁ (List.rel_append hw₂
        (.cons hsemicolonR (List.rel_append hw₃ (.cons hrightR hw₄)))))),
      .forStmt hkeyword' hleftParen' hinit' hcondition'
        hsemicolon' hincrement' hrightParen' hderives⟩
  | ifStmt hkeyword hleftParen hcondition hrightParen _ ih =>
    intro Γ s' hs
    cases hs with
    | conditional hconditionLike hthen =>
      obtain ⟨w₁', hw₁, hcondition'⟩ := hcondition.carried hR _ hconditionLike
      obtain ⟨w₂', hw₂, hderives⟩ := ih _ _ hthen
      obtain ⟨_, hkeywordR, hkeyword'⟩ := hR.fixed hkeyword
      obtain ⟨_, hleftR, hleftParen'⟩ := hR.fixed hleftParen
      obtain ⟨_, hrightR, hrightParen'⟩ := hR.fixed hrightParen
      exact ⟨_, .cons hkeywordR (.cons hleftR (List.rel_append hw₁ (.cons hrightR hw₂))),
        .ifStmt hkeyword' hleftParen' hcondition' hrightParen' hderives⟩
  -- What the nearest `if` demands of the branch is about its ending, which stays as it is.
  | ifElseStmt hkeyword hleftParen hcondition hrightParen _ hnearest helse _ ih₂ ih₃ =>
    intro Γ s' hs
    cases hs with
    | alternative hconditionLike hthen helseLike =>
      obtain ⟨w₁', hw₁, hcondition'⟩ := hcondition.carried hR _ hconditionLike
      obtain ⟨w₂', hw₂, hderives₂⟩ := ih₂ _ _ hthen
      obtain ⟨w₃', hw₃, hderives₃⟩ := ih₃ _ _ helseLike
      obtain ⟨_, hkeywordR, hkeyword'⟩ := hR.fixed hkeyword
      obtain ⟨_, hleftR, hleftParen'⟩ := hR.fixed hleftParen
      obtain ⟨_, hrightR, hrightParen'⟩ := hR.fixed hrightParen
      obtain ⟨_, helseR, helse'⟩ := hR.fixed helse
      exact ⟨_, .cons hkeywordR (.cons hleftR (List.rel_append hw₁ (.cons hrightR
          (List.rel_append hw₂ (.cons helseR hw₃))))),
        .ifElseStmt hkeyword' hleftParen' hcondition'
          hrightParen' hderives₂ hnearest helse' hderives₃⟩
  | returnStmt hkeyword hvalue hsemicolon =>
    intro Γ s' hs
    cases hs with
    | returning hkeywordLike hvalueLike =>
      obtain ⟨w', hw, hvalue'⟩ := hvalue.carried hR hvalueLike
      obtain ⟨_, hsemicolonR, hsemicolon'⟩ := hR.fixed hsemicolon
      obtain ⟨hkeywordR, hkeyword'⟩ := hR.token_of hkeywordLike hkeyword nofun
      exact ⟨_, .cons hkeywordR (List.rel_append hw (.cons hsemicolonR .nil)),
        .returnStmt hkeyword' hvalue' hsemicolon'⟩
  -- A `while` loop is a loop without an increment.
  | whileStmt hkeyword hleftParen hcondition hrightParen _ ih =>
    intro Γ s' hs
    cases hs with
    | loop hconditionLike hbody hincrement =>
      cases hincrement
      obtain ⟨w₁', hw₁, hcondition'⟩ := hcondition.carried hR _ hconditionLike
      obtain ⟨w₂', hw₂, hderives⟩ := ih _ _ hbody
      obtain ⟨_, hkeywordR, hkeyword'⟩ := hR.fixed hkeyword
      obtain ⟨_, hleftR, hleftParen'⟩ := hR.fixed hleftParen
      obtain ⟨_, hrightR, hrightParen'⟩ := hR.fixed hrightParen
      exact ⟨_, .cons hkeywordR (.cons hleftR (List.rel_append hw₁ (.cons hrightR hw₂))),
        .whileStmt hkeyword' hleftParen' hcondition' hrightParen' hderives⟩
  -- Keywords are in the tree because errors show at them.
  | breakStmt hkeyword hsemicolon =>
    intro Γ s' hs
    cases hs with
    | breaking hkeywordLike =>
      obtain ⟨_, hsemicolonR, hsemicolon'⟩ := hR.fixed hsemicolon
      obtain ⟨hkeywordR, hkeyword'⟩ := hR.token_of hkeywordLike hkeyword nofun
      exact ⟨_, .cons hkeywordR (.cons hsemicolonR .nil),
        .breakStmt hkeyword' hsemicolon'⟩
  | continueStmt hkeyword hsemicolon =>
    intro Γ s' hs
    cases hs with
    | continuing hkeywordLike =>
      obtain ⟨_, hsemicolonR, hsemicolon'⟩ := hR.fixed hsemicolon
      obtain ⟨hkeywordR, hkeyword'⟩ := hR.token_of hkeywordLike hkeyword nofun
      exact ⟨_, .cons hkeywordR (.cons hsemicolonR .nil),
        .continueStmt hkeyword' hsemicolon'⟩
  | block hopening _ hclosing ih =>
    intro Γ s' hs
    cases hs with
    | block _ hbody =>
      obtain ⟨w', hw, hderives⟩ := ih _ _ hbody
      obtain ⟨_, hopeningR, hopening'⟩ := hR.fixed hopening
      obtain ⟨_, hclosingR, hclosing'⟩ := hR.fixed hclosing
      exact ⟨_, .cons hopeningR (List.rel_append hw (.cons hclosingR .nil)),
        .block hopening' hderives hclosing'⟩

end Grammar

end Lox
