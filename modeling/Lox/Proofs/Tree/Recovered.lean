import Lox.Proofs.Parser.Acceptance
import Lox.Proofs.Token.Respaced
import Lox.Proofs.Tree.ReadBack
import Lox.Proofs.Tree.Shape

/-!
# Printed statements tell which statements they are

What the grammar derives from tokens that can be read comes back from its form.  The tokens
of a source can be read, and no two forms have the same text.  So two statements of parsed
sources with the same printed form differ in identities and lines at most.
-/

namespace Lox

namespace Grammar

def Legible (w : List Token) : Prop := ∀ t ∈ w, t.Readable

@[simp]
theorem legible_cons {t : Token} {w : List Token} : Legible (t :: w) ↔ t.Readable ∧ Legible w :=
  List.forall_mem_cons

@[simp]
theorem legible_append {w w' : List Token} : Legible (w ++ w') ↔ Legible w ∧ Legible w' :=
  List.forall_mem_append

/-! ### Expressions -/

/-- The tree of a phrase comes back; what an operand becomes does if the operand does. -/
def ExprPhrase.ReadsBack : ExprPhrase → Prop
  | .expression e | .binary _ e | .unary e | .call e | .primary e => e.ReadsBack
  | .binaryRest _ operand e | .callRest operand e => operand.ReadsBack → e.ReadsBack
  | .arguments es => Expr.ReadsBackEach es

theorem ExprPhrase.ReadsBack.operand {rule : BinaryRule} {e : Expr}
    (h : (rule.operand e).ReadsBack) : e.ReadsBack := by
  cases rule <;> exact h

theorem BinaryRule.mem_operators (rule : BinaryRule) :
    ∀ kind ∈ rule.operators, kind ∈ Form.operators.map Prod.snd := by
  cases rule <;> decide

theorem readsBack_node {rule : BinaryRule} {left right : Expr} {operator : Token}
    (hleft : left.ReadsBack) (hoperator : operator.Readable)
    (hkind : operator.kind ∈ rule.operators) (hright : right.ReadsBack) :
    (rule.node left operator right).ReadsBack := by
  have hmem := rule.mem_operators _ hkind
  cases rule with
  | logicOr => exact .logical hoperator (.inr (List.mem_singleton.mp hkind)) hleft hright
  | logicAnd => exact .logical hoperator (.inl (List.mem_singleton.mp hkind)) hleft hright
  | equality | comparison | term | factor =>
    refine .binary hoperator hmem ?_ hleft hright
    revert hkind
    generalize operator.kind = kind
    revert kind
    decide

theorem ExprDerives.readsBack {phrase : ExprPhrase} {w : List Token} (h : ExprDerives phrase w)
    (hw : Legible w) : phrase.ReadsBack := by
  -- A phrase comes back with its names and keywords, which the legible tokens spell; the
  -- phrases of what follows an operand come back behind any operand that does.
  induction h with
  | assign hname _ _ ih =>
    simp only [legible_cons] at hw
    exact .assign (hw.1.names hname) (ih hw.2.2)
  | set _ _ hname _ _ ih₁ ih₂ =>
    simp only [legible_append, legible_cons] at hw
    exact .set (hw.2.2.1.names hname) (ih₁ hw.1) (ih₂ hw.2.2.2.2)
  | operation _ ih | unprefixed _ ih => exact ih hw
  | binary _ _ ih₁ ih₂ =>
    rw [legible_append] at hw
    exact ih₂ hw.2 (ih₁ hw.1).operand
  -- Nothing follows: the operand itself.
  | binaryEnd | callEnd => exact id
  | binaryMore hkind _ _ ih₁ ih₂ =>
    simp only [legible_append, legible_cons] at hw
    intro hleft
    exact ih₂ hw.2.2 (readsBack_node hleft hw.1 hkind (ih₁ hw.2.1).operand)
  | prefixed hkind _ ih =>
    rw [legible_cons] at hw
    refine .unary hw.1 ?_ (ih hw.2)
    rcases hkind with h | h <;> rw [h] <;> decide
  | call _ _ ih₁ ih₂ =>
    rw [legible_append] at hw
    exact ih₂ hw.2 (ih₁ hw.1)
  | callEmpty _ hclosing _ ih =>
    simp only [legible_cons] at hw
    -- The argument list is empty, with the parenthesis of the call.
    intro hcallee
    exact ih hw.2.2 (.call (hw.2.1.bare_eq hclosing (by decide) (by decide)) hcallee
      Expr.readsBackEach_nil)
  | callWith _ _ _ hclosing _ ih₁ ih₂ =>
    simp only [legible_append, legible_cons] at hw
    intro hcallee
    exact ih₂ hw.2.2.2 (.call (hw.2.2.1.bare_eq hclosing (by decide) (by decide)) hcallee
      (ih₁ hw.2.1))
  | property _ hname _ ih =>
    simp only [legible_cons] at hw
    intro hcallee
    exact ih hw.2.2 (.get (hw.2.1.names hname) hcallee)
  | argument _ ih => exact .cons (ih hw) Expr.readsBackEach_nil
  | argumentsMore _ _ _ ih₁ ih₂ =>
    simp only [legible_append, legible_cons] at hw
    exact .cons (ih₁ hw.1) (ih₂ hw.2.2)
  -- Literals carry their value, so there is nothing of a token to read back.
  | number => exact Expr.readsBack_literal (Literal.readsBack_number _)
  | string => exact Expr.readsBack_literal nofun
  | kwTrue | kwFalse => exact Expr.readsBack_literal (Literal.readsBack_bool _)
  | kwNil => exact Expr.readsBack_literal Literal.readsBack_nil
  | kwThis hkind =>
    rw [legible_cons] at hw
    exact Expr.readsBack_this (hw.1.bare_eq hkind (by decide) (by decide))
  | name hkind =>
    rw [legible_cons] at hw
    exact Expr.readsBack_read (hw.1.names hkind)
  | group _ _ _ ih =>
    simp only [legible_append, legible_cons] at hw
    exact .group (ih hw.2.1)
  | kwSuper hkeyword _ hmethod =>
    simp only [legible_cons] at hw
    exact Expr.readsBack_super (hw.1.bare_eq hkeyword (by decide) (by decide))
      (hw.2.2.1.names hmethod)

theorem OptionalExpr.readsBack {e : Option Expr} {w : List Token} (h : OptionalExpr e w)
    (hw : Legible w) : ∀ x ∈ e, x.ReadsBack := by
  cases h with
  | absent => nofun
  | present he =>
    rintro x ⟨⟩
    exact he.readsBack hw

/-! ### Statements -/

/-- The trees of a phrase come back, with the statements in them. -/
def StmtPhrase.ReadsBack : StmtPhrase → Prop
  | .declaration s | .statement _ s => ∀ x ∈ s.within, x.ReadsBack
  | .declarations ss => ∀ x ∈ Stmt.withinEach ss, x.ReadsBack
  | .function d => d.ReadsBack ∧ ∀ x ∈ d.within, x.ReadsBack
  | .functions ds => FunctionDecl.ReadsBackEach ds ∧ ∀ x ∈ FunctionDecl.withinEach ds, x.ReadsBack

theorem ExprStmt.readsBack {s : Stmt} {w : List Token} (h : ExprStmt s w) (hw : Legible w) :
    ∀ x ∈ s.within, x.ReadsBack := by
  cases h with
  | mk he _ =>
    rw [legible_append] at hw
    exact List.forall_mem_singleton.mpr (.expression (he.readsBack hw.1))

theorem VarDecl.readsBack {s : Stmt} {w : List Token} (h : VarDecl s w) (hw : Legible w) :
    ∀ x ∈ s.within, x.ReadsBack := by
  cases h with
  | plain _ hname _ =>
    simp only [legible_cons] at hw
    exact List.forall_mem_singleton.mpr (Stmt.readsBack_var (hw.2.1.names hname) nofun)
  | initialized _ hname _ he _ =>
    simp only [legible_append, legible_cons] at hw
    refine List.forall_mem_singleton.mpr (Stmt.readsBack_var (hw.2.1.names hname) ?_)
    rintro x ⟨⟩
    exact he.readsBack hw.2.2.2.1

theorem Parameters.names {names w : List Token} (h : Parameters names w) (hw : Legible w) :
    ∀ t ∈ names, t.Names := by
  induction h with
  | one hname =>
    rw [legible_cons] at hw
    exact List.forall_mem_singleton.mpr (hw.1.names hname)
  | more hname _ _ ih =>
    simp only [legible_cons] at hw
    exact List.forall_mem_cons.mpr ⟨hw.1.names hname, ih hw.2.2⟩

theorem OptionalParameters.names {names w : List Token} (h : OptionalParameters names w)
    (hw : Legible w) : ∀ t ∈ names, t.Names := by
  cases h with
  | absent => nofun
  | present hnames _ => exact hnames.names hw

theorem Superclass.names {place : Option Occurrence} {w : List Token} (h : Superclass place w)
    (hw : Legible w) : ∀ p ∈ place, p.token.Names := by
  cases h with
  | absent => nofun
  | present _ hname =>
    simp only [legible_cons] at hw
    rintro p ⟨⟩
    exact hw.2.1.names hname

/-- A block comes back if everything in its statements does. -/
theorem readsBack_block {body : List Stmt} (h : ∀ x ∈ Stmt.withinEach body, x.ReadsBack) :
    ∀ x ∈ (Stmt.block body).within, x.ReadsBack :=
  List.forall_mem_cons.mpr ⟨(Stmt.readsBackEach_of_within h).block, h⟩

theorem readsBack_forTree {initializer : Option Stmt} {condition increment : Option Expr}
    {body : Stmt} {w₁ w₂ w₃ : List Token} (hinit : ForInit initializer w₁)
    (hcondition : OptionalExpr condition w₂) (hincrement : OptionalExpr increment w₃)
    (hw₁ : Legible w₁) (hw₂ : Legible w₂) (hw₃ : Legible w₃)
    (hbody : ∀ x ∈ body.within, x.ReadsBack) :
    ∀ x ∈ (forTree initializer condition increment body).within, x.ReadsBack := by
  have htest : (condition.getD (.literal (.bool true))).ReadsBack := by
    cases hcondition with
    | absent => exact Expr.readsBack_literal (Literal.readsBack_bool true)
    | present he => exact he.readsBack hw₂
  have hloop : ∀ x ∈ (forTree none condition increment body).within, x.ReadsBack :=
    List.forall_mem_cons.mpr
      ⟨.loop htest (hbody body body.mem_within) (hincrement.readsBack hw₃), hbody⟩
  have hboth : ∀ s : Stmt, (∀ x ∈ s.within, x.ReadsBack) →
      ∀ x ∈ (forTree (some s) condition increment body).within, x.ReadsBack := by
    intro s hs
    refine readsBack_block (List.forall_mem_append.mpr ⟨hs, ?_⟩)
    exact List.forall_mem_append.mpr ⟨hloop, List.forall_mem_nil _⟩
  cases hinit with
  | var hvar => exact hboth _ (hvar.readsBack hw₁)
  | expression he => exact hboth _ (he.readsBack hw₁)
  | absent => exact hloop

/-- What is derived from tokens that can be read comes back. -/
theorem StmtDerives.readsBack {attachment : Attachment} {phrase : StmtPhrase} {w : List Token}
    (h : StmtDerives attachment phrase w) (hw : Legible w) : phrase.ReadsBack := by
  -- Beside the statement itself, every statement within it comes back.
  induction h with
  | classDecl _ hname hsuper _ _ _ ih =>
    simp only [legible_append, legible_cons] at hw
    obtain ⟨hmethods, hwithin⟩ := ih hw.2.2.2.2.1
    exact List.forall_mem_cons.mpr
      ⟨Stmt.readsBack_class (hw.2.1.names hname) (hsuper.names hw.2.2.1) hmethods, hwithin⟩
  | funDecl _ _ ih =>
    obtain ⟨hfunction, hwithin⟩ := ih (legible_cons.mp hw).2
    exact List.forall_mem_cons.mpr ⟨Stmt.readsBack_function hfunction, hwithin⟩
  | varDecl hvar => exact hvar.readsBack hw
  | plain _ ih => exact ih hw
  | declarationsEnd => exact List.forall_mem_nil _
  | declarationsMore _ _ ih ih' =>
    rw [legible_append] at hw
    exact List.forall_mem_append.mpr ⟨ih hw.1, ih' hw.2⟩
  -- A function is no statement: what stands within its body is all that stands within it.
  | function hname _ hparameters _ _ _ _ ih =>
    simp only [legible_append, legible_cons] at hw
    have hbody := ih hw.2.2.2.2.2.1
    exact ⟨.mk (hw.1.names hname) (hparameters.names hw.2.2.1) (Stmt.readsBackEach_of_within hbody),
      hbody⟩
  | functionsEnd => exact ⟨FunctionDecl.readsBackEach_nil, List.forall_mem_nil _⟩
  | functionsMore _ _ ih ih' =>
    rw [legible_append] at hw
    obtain ⟨hfunction, hwithin⟩ := ih hw.1
    obtain ⟨hfunctions, hwithinEach⟩ := ih' hw.2
    exact ⟨.cons hfunction hfunctions, List.forall_mem_append.mpr ⟨hwithin, hwithinEach⟩⟩
  | exprStmt he => exact he.readsBack hw
  -- A `for` comes back as the loop that it abbreviates.
  | forStmt _ _ hinit hcondition _ hincrement _ _ ih =>
    simp only [legible_append, legible_cons] at hw
    exact readsBack_forTree hinit hcondition hincrement hw.2.2.1 hw.2.2.2.1 hw.2.2.2.2.2.1
      (ih hw.2.2.2.2.2.2.2)
  | @ifStmt _ _ _ _ _ thenBranch _ _ _ _ hcondition _ _ ih =>
    simp only [legible_append, legible_cons] at hw
    have hthen := ih hw.2.2.2.2
    exact List.forall_mem_cons.mpr
      ⟨.conditional (hcondition.readsBack hw.2.2.1) (hthen _ thenBranch.mem_within), hthen⟩
  | @ifElseStmt _ _ _ _ _ _ _ thenBranch elseBranch _ _ _ _ _ hcondition _ _ _ _ _ ih ih' =>
    simp only [legible_append, legible_cons] at hw
    have hthen := ih hw.2.2.2.2.1
    have helse := ih' hw.2.2.2.2.2.2
    exact List.forall_mem_cons.mpr
      ⟨.alternative (hcondition.readsBack hw.2.2.1) (hthen _ thenBranch.mem_within)
        (helse _ elseBranch.mem_within), List.forall_mem_append.mpr ⟨hthen, helse⟩⟩
  -- The keyword of a jump keeps its spelling.
  | returnStmt hkind hvalue _ =>
    simp only [legible_append, legible_cons] at hw
    exact List.forall_mem_singleton.mpr
      (Stmt.readsBack_returning (hw.1.bare_eq hkind (by decide) (by decide))
        (hvalue.readsBack hw.2.1))
  | @whileStmt _ _ _ _ _ body _ _ _ _ hcondition _ _ ih =>
    simp only [legible_append, legible_cons] at hw
    have hbody := ih hw.2.2.2.2
    exact List.forall_mem_cons.mpr
      ⟨.loop (hcondition.readsBack hw.2.2.1) (hbody _ body.mem_within) nofun, hbody⟩
  | breakStmt hkind =>
    simp only [legible_cons] at hw
    exact List.forall_mem_singleton.mpr
      (Stmt.readsBack_breaking (hw.1.bare_eq hkind (by decide) (by decide)))
  | continueStmt hkind =>
    simp only [legible_cons] at hw
    exact List.forall_mem_singleton.mpr
      (Stmt.readsBack_continuing (hw.1.bare_eq hkind (by decide) (by decide)))
  | block _ _ _ ih =>
    simp only [legible_append, legible_cons] at hw
    exact readsBack_block (ih hw.2.1)

end Grammar

/-! ### Parsed sources -/

namespace Stmt

variable {source source' : String} {n n' : Nat} {program program' : List Stmt} {s s' : Stmt}

/-- Each statement of a parsed source comes back from its form. -/
theorem readsBack_of_parse
    (hparse : (Parser.parse (Item.tokens (Item.scan source)) n).1 = .ok program) :
    ∀ x ∈ withinEach program, x.ReadsBack := by
  have hderived := Parser.derives_of_parse (Item.endsWithOnlyEof_scan source) hparse
  -- the end of the input cannot be read, but it belongs to no statement
  obtain ⟨body, last, htokens, horderly⟩ := Item.orderly_scan source
  generalize Item.tokens (Item.scan source) = tokens at hderived htokens
  cases hderived with
  | mk hderives _ =>
    obtain ⟨rfl, -⟩ := List.append_inj' htokens rfl
    exact hderives.readsBack horderly.readable

/--
Two statements in parsed sources, at any depth, that are printed alike differ at most in the
identities of their occurrences and the lines of their tokens, if they have no strings and no
infinite numbers in them.
-/
theorem bare_eq_of_print_eq
    (hparse : (Parser.parse (Item.tokens (Item.scan source)) n).1 = .ok program)
    (hparse' : (Parser.parse (Item.tokens (Item.scan source')) n').1 = .ok program')
    (hs : s ∈ withinEach program) (hs' : s' ∈ withinEach program')
    (hplain : ∀ value ∈ s.literals, value.isPlain = true)
    (hplain' : ∀ value ∈ s'.literals, value.isPlain = true)
    (hprint : s.print = s'.print) : s.bare = s'.bare := by
  obtain ⟨hproper, hread⟩ := readsBack_of_parse hparse s hs hplain
  obtain ⟨hproper', hread'⟩ := readsBack_of_parse hparse' s' hs' hplain'
  have htext : s.form.text = s'.form.text := by rw [← s.toList_print, ← s'.toList_print, hprint]
  have hform := Form.text_inj hproper hproper' htext
  rw [← hread, ← hread', hform]

/-- A function whose names are the heads of forms. -/
def methodStored : String :=
  "fun call(group) \x7b group.method = -1 - call(group); \x7d"

/-- The same function, on lines of its own in a block. -/
def methodStoredBelow : String :=
  "\x7b\n  fun call(group) \x7b // as above\n    group.method = -1.0 - call(group)\n  \x7d\n\x7d"

theorem methodStored_recovered :
    ∃ program program' s s',
      (Parser.parse (Item.tokens (Item.scan methodStored)) 0).1 = .ok program ∧
      (Parser.parse (Item.tokens (Item.scan methodStoredBelow)) 7).1 = .ok program' ∧
      s ∈ withinEach program ∧ s' ∈ withinEach program' ∧
      s.declared? = some "call" ∧ s.occurrences ≠ s'.occurrences ∧
      s.print = s'.print ∧ s.bare = s'.bare := by
  have htests : ((Parser.parse (Item.tokens (Item.scan methodStored)) 0).1.toOption.any
      fun program => (Parser.parse (Item.tokens (Item.scan methodStoredBelow)) 7).1.toOption.any
        fun program' => (withinEach program).any fun s => (withinEach program').any fun s' =>
          (∀ value ∈ s.literals, value.isPlain = true) ∧
          (∀ value ∈ s'.literals, value.isPlain = true) ∧
          s.declared? = some "call" ∧ s.occurrences ≠ s'.occurrences ∧
          s.print = s'.print) = true := by
    decide +kernel
  obtain ⟨program, hparse, htest⟩ := Parser.exists_of_any htests
  obtain ⟨program', hparse', hany⟩ := Parser.exists_of_any htest
  obtain ⟨s, hs, hany'⟩ := List.any_eq_true.mp hany
  obtain ⟨s', hs', hdecided⟩ := List.any_eq_true.mp hany'
  obtain ⟨hplain, hplain', hname, hdiffer, hprint⟩ := of_decide_eq_true hdecided
  exact ⟨program, program', s, s', hparse, hparse', hs, hs', hname, hdiffer, hprint,
    bare_eq_of_print_eq hparse hparse' hs hs' hplain hplain' hprint⟩

end Stmt

end Lox
