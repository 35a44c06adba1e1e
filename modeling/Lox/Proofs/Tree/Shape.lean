import Lox.Proofs.Token.Spelling
import Lox.Tree.Occurrences

/-!
# The shape of derived trees

Not every tree is one that the grammar derives.  In a derived tree of tokens that
are spelled right, `this` and `super` are never the name of a variable, and nothing
is declared in a branch or as the body of a loop without a block around it.
-/

namespace Lox

/-! ### The names of occurrences -/

/-- The name is one that is looked up in this way. -/
def OccurrenceKind.Fits : OccurrenceKind → Occurrence → Prop
  | .read, place => IsName place.name
  | .assign, place => IsName place.name
  | .this, place => place.name = "this"
  | .super, place => place.name = "super"

/-- All names are looked up in the way that fits them. -/
def Fitting (entries : List (OccurrenceKind × Occurrence)) : Prop :=
  ∀ entry ∈ entries, entry.1.Fits entry.2

@[simp]
theorem fitting_nil : Fitting [] := by
  intro entry hentry
  cases hentry

@[simp]
theorem fitting_cons {entry : OccurrenceKind × Occurrence}
    {entries : List (OccurrenceKind × Occurrence)} :
    Fitting (entry :: entries) ↔ entry.1.Fits entry.2 ∧ Fitting entries := by
  simp [Fitting]

@[simp]
theorem fitting_append {first second : List (OccurrenceKind × Occurrence)} :
    Fitting (first ++ second) ↔ Fitting first ∧ Fitting second := by
  simp [Fitting, or_imp, forall_and]

/-! ### Declarations -/

/-- The name that a statement declares in the scope it stands in. -/
def Stmt.declared? : Stmt → Option String
  | .var name _ => some name.lexeme
  | .function declaration => some declaration.name.lexeme
  | .class name _ _ => some name.lexeme
  | _ => none

/-- The names that a statement declares in the scope it stands in, its branches included. -/
def Stmt.declares : Stmt → List String
  | .var name _ => [name.lexeme]
  | .function declaration => [declaration.name.lexeme]
  | .class name _ _ => [name.lexeme]
  | .conditional _ thenBranch none => thenBranch.declares
  | .conditional _ thenBranch (some elseBranch) => thenBranch.declares ++ elseBranch.declares
  | .loop _ body _ => body.declares
  | _ => []

mutual

/-- Declared names are names, and branches and bodies of loops declare nothing. -/
def Stmt.Shaped : Stmt → Prop
  | .expression _ => True
  | .var name _ => IsName name.lexeme
  | .block body => Stmt.ShapedEach body
  | .conditional _ thenBranch none => thenBranch.declared? = none ∧ thenBranch.Shaped
  | .conditional _ thenBranch (some elseBranch) =>
    (thenBranch.declared? = none ∧ thenBranch.Shaped) ∧
      elseBranch.declared? = none ∧ elseBranch.Shaped
  | .loop _ body _ => body.declared? = none ∧ body.Shaped
  | .function declaration => IsName declaration.name.lexeme ∧ declaration.Shaped
  | .returning _ _ => True
  | .breaking _ => True
  | .continuing _ => True
  | .class name _ methods => IsName name.lexeme ∧ FunctionDecl.ShapedEach methods
termination_by structural s => s

def Stmt.ShapedEach : List Stmt → Prop
  | [] => True
  | s :: rest => s.Shaped ∧ Stmt.ShapedEach rest
termination_by structural ss => ss

def FunctionDecl.Shaped : FunctionDecl → Prop
  | ⟨_, parameters, body⟩ => (∀ t ∈ parameters, IsName t.lexeme) ∧ Stmt.ShapedEach body
termination_by structural d => d

def FunctionDecl.ShapedEach : List FunctionDecl → Prop
  | [] => True
  | d :: rest => d.Shaped ∧ FunctionDecl.ShapedEach rest
termination_by structural ds => ds

end

/-- In a shaped tree a statement declares at most one name, and not in its branches. -/
theorem Stmt.declares_of_shaped : (s : Stmt) → s.Shaped → s.declares = s.declared?.toList
  | .conditional _ thenBranch none, h => by
    rw [declares, thenBranch.declares_of_shaped h.2, h.1]
    rfl
  | .conditional _ thenBranch (some elseBranch), h => by
    rw [declares, thenBranch.declares_of_shaped h.1.2, elseBranch.declares_of_shaped h.2.2, h.1.1,
      h.2.1]
    rfl
  | .loop _ body _, h => by
    rw [declares, body.declares_of_shaped h.2, h.1]
    rfl
  | .expression _, _ | .var _ _, _ | .block _, _ | .function _, _ | .returning _ _, _
  | .breaking _, _ | .continuing _, _ | .class _ _ _, _ => rfl
termination_by structural s => s

namespace Grammar

/-! ### Derived expressions -/

def AllSpelled (w : List Token) : Prop := ∀ t ∈ w, t.Spelled

@[simp]
theorem allSpelled_nil : AllSpelled [] := by
  intro t ht
  cases ht

@[simp]
theorem allSpelled_cons {t : Token} {w : List Token} :
    AllSpelled (t :: w) ↔ t.Spelled ∧ AllSpelled w := by
  simp [AllSpelled]

@[simp]
theorem allSpelled_append {w w' : List Token} :
    AllSpelled (w ++ w') ↔ AllSpelled w ∧ AllSpelled w' := by
  simp [AllSpelled, or_imp, forall_and]

/-- The names in the tree of a phrase are looked up in the way that fits them. -/
def ExprPhrase.Fitting : ExprPhrase → Prop
  | .expression e => Lox.Fitting e.occurrences
  | .binary _ e => Lox.Fitting e.occurrences
  | .binaryRest _ left e => Lox.Fitting left.occurrences → Lox.Fitting e.occurrences
  | .unary e => Lox.Fitting e.occurrences
  | .call e => Lox.Fitting e.occurrences
  | .callRest callee e => Lox.Fitting callee.occurrences → Lox.Fitting e.occurrences
  | .arguments es => Lox.Fitting (Expr.occurrencesEach es)
  | .primary e => Lox.Fitting e.occurrences

theorem BinaryRule.fitting_operand {rule : BinaryRule} {e : Expr} :
    (rule.operand e).Fitting ↔ Lox.Fitting e.occurrences := by
  cases rule <;> rfl

theorem BinaryRule.occurrences_node {rule : BinaryRule} {left right : Expr} {operator : Token} :
    (rule.node left operator right).occurrences = left.occurrences ++ right.occurrences := by
  cases rule <;> rfl

theorem ExprDerives.fitting {phrase : ExprPhrase} {w : List Token} (h : ExprDerives phrase w)
    (hw : AllSpelled w) : phrase.Fitting := by
  induction h with
  -- An assignment and a read are occurrences of their names; the other phrases have the
  -- occurrences of their parts, one behind the other.
  | assign hname _ _ ih =>
    simp only [allSpelled_cons] at hw
    exact fitting_cons.mpr ⟨hw.1.identifier hname, ih hw.2.2⟩
  | set _ _ _ _ _ ih ih' =>
    simp only [allSpelled_append, allSpelled_cons] at hw
    exact fitting_append.mpr ⟨ih hw.1, ih' hw.2.2.2.2⟩
  | operation _ ih => exact ih hw
  | binary _ _ ih ih' =>
    rw [allSpelled_append] at hw
    exact ih' hw.2 (BinaryRule.fitting_operand.mp (ih hw.1))
  | binaryEnd => exact id
  -- The left operand comes from the phrases before, as the hypothesis of the implication.
  | binaryMore _ _ _ ih ih' =>
    simp only [allSpelled_append, allSpelled_cons] at hw
    intro hleft
    apply ih' hw.2.2
    rw [BinaryRule.occurrences_node]
    exact fitting_append.mpr ⟨hleft, BinaryRule.fitting_operand.mp (ih hw.2.1)⟩
  | prefixed _ _ ih => exact ih (allSpelled_cons.mp hw).2
  | unprefixed _ ih => exact ih hw
  | call _ _ ih ih' =>
    rw [allSpelled_append] at hw
    exact ih' hw.2 (ih hw.1)
  | callEnd => exact id
  | callEmpty _ _ _ ih =>
    simp only [allSpelled_cons] at hw
    intro hcallee
    exact ih hw.2.2 (fitting_append.mpr ⟨hcallee, fitting_nil⟩)
  | callWith _ _ _ _ _ ih ih' =>
    simp only [allSpelled_append, allSpelled_cons] at hw
    intro hcallee
    exact ih' hw.2.2.2 (fitting_append.mpr ⟨hcallee, ih hw.2.1⟩)
  | property _ _ _ ih =>
    simp only [allSpelled_cons] at hw
    intro hcallee
    exact ih hw.2.2 hcallee
  | argument _ ih => exact fitting_append.mpr ⟨ih hw, fitting_nil⟩
  | argumentsMore _ _ _ ih ih' =>
    simp only [allSpelled_append, allSpelled_cons] at hw
    exact fitting_append.mpr ⟨ih hw.1, ih' hw.2.2⟩
  | number => exact fitting_nil
  | string => exact fitting_nil
  | kwTrue => exact fitting_nil
  | kwFalse => exact fitting_nil
  | kwNil => exact fitting_nil
  -- `this` and `super` are occurrences too, of their keywords.
  | kwThis hkind =>
    exact fitting_cons.mpr ⟨(allSpelled_cons.mp hw).1.kwThis hkind, fitting_nil⟩
  | name hkind =>
    exact fitting_cons.mpr ⟨(allSpelled_cons.mp hw).1.identifier hkind, fitting_nil⟩
  | group _ _ _ ih =>
    simp only [allSpelled_append, allSpelled_cons] at hw
    exact ih hw.2.1
  | kwSuper hkind =>
    exact fitting_cons.mpr ⟨(allSpelled_cons.mp hw).1.kwSuper hkind, fitting_nil⟩

theorem OptionalExpr.fitting {e : Option Expr} {w : List Token} (h : OptionalExpr e w)
    (hw : AllSpelled w) : Lox.Fitting (Expr.occurrencesIn? e) := by
  cases h with
  | absent => exact fitting_nil
  | present he => exact he.fitting hw

/-! ### Derived statements -/

/-- The names in a statement are looked up in the way that fits them, and it is shaped. -/
def Proper (s : Stmt) : Prop := Lox.Fitting s.occurrences ∧ s.Shaped

/-- All of a phrase's tree is as it should be. -/
def StmtPhrase.Proper : StmtPhrase → Prop
  | .declaration s => Grammar.Proper s
  | .declarations ss => Lox.Fitting (Stmt.occurrencesEach ss) ∧ Stmt.ShapedEach ss
  | .function d => Lox.Fitting d.occurrences ∧ IsName d.name.lexeme ∧ d.Shaped
  | .functions ds => Lox.Fitting (FunctionDecl.occurrencesEach ds) ∧ FunctionDecl.ShapedEach ds
  | .statement _ s => Grammar.Proper s ∧ s.declared? = none

theorem ExprStmt.proper {s : Stmt} {w : List Token} (h : ExprStmt s w) (hw : AllSpelled w) :
    Proper s ∧ s.declared? = none := by
  cases h with
  | mk he _ =>
    rw [allSpelled_append] at hw
    exact ⟨⟨he.fitting hw.1, trivial⟩, rfl⟩

theorem VarDecl.proper {s : Stmt} {w : List Token} (h : VarDecl s w) (hw : AllSpelled w) :
    Proper s := by
  cases h with
  | plain _ hname _ =>
    simp only [allSpelled_cons] at hw
    exact ⟨fitting_nil, hw.2.1.identifier hname⟩
  | initialized _ hname _ he _ =>
    simp only [allSpelled_append, allSpelled_cons] at hw
    exact ⟨he.fitting hw.2.2.2.1, hw.2.1.identifier hname⟩

theorem Parameters.isName {names w : List Token} (h : Parameters names w) (hw : AllSpelled w) :
    ∀ t ∈ names, IsName t.lexeme := by
  induction h with
  | one hname =>
    intro t ht
    rw [List.mem_singleton.mp ht]
    exact (allSpelled_cons.mp hw).1.identifier hname
  | more hname _ _ ih =>
    simp only [allSpelled_cons] at hw
    intro t ht
    rcases List.mem_cons.mp ht with rfl | ht
    · exact hw.1.identifier hname
    · exact ih hw.2.2 t ht

theorem OptionalParameters.isName {names w : List Token} (h : OptionalParameters names w)
    (hw : AllSpelled w) : ∀ t ∈ names, IsName t.lexeme := by
  cases h with
  | absent =>
    intro t ht
    cases ht
  | present hnames _ => exact hnames.isName hw

theorem proper_forTree {initializer : Option Stmt} {condition increment : Option Expr}
    {body : Stmt} {w₁ w₂ w₃ : List Token} (hinit : ForInit initializer w₁)
    (hcondition : OptionalExpr condition w₂) (hincrement : OptionalExpr increment w₃)
    (hw₁ : AllSpelled w₁) (hw₂ : AllSpelled w₂) (hw₃ : AllSpelled w₃)
    (hbody : Proper body ∧ body.declared? = none) :
    Proper (forTree initializer condition increment body) ∧
      (forTree initializer condition increment body).declared? = none := by
  have htest : Lox.Fitting (condition.getD (.literal (.bool true))).occurrences := by
    have hfitting := hcondition.fitting hw₂
    cases condition with
    | none => exact fitting_nil
    | some e => exact hfitting
  have hloop : Proper (.loop (condition.getD (.literal (.bool true))) body increment) :=
    ⟨fitting_append.mpr ⟨fitting_append.mpr ⟨htest, hbody.1.1⟩, hincrement.fitting hw₃⟩,
      hbody.2, hbody.1.2⟩
  have hblock : ∀ first, Proper first →
      Proper (.block [first, .loop (condition.getD (.literal (.bool true))) body increment]) := by
    intro first hfirst
    exact ⟨fitting_append.mpr ⟨hfirst.1, fitting_append.mpr ⟨hloop.1, fitting_nil⟩⟩,
      hfirst.2, hloop.2, trivial⟩
  cases hinit with
  | var hvar => exact ⟨hblock _ (hvar.proper hw₁), rfl⟩
  | expression he => exact ⟨hblock _ (he.proper hw₁).1, rfl⟩
  | absent => exact ⟨hloop, rfl⟩

theorem StmtDerives.proper {attachment : Attachment} {phrase : StmtPhrase} {w : List Token}
    (h : StmtDerives attachment phrase w) (hw : AllSpelled w) : phrase.Proper := by
  induction h with
  -- The superclass of a class is an occurrence ahead of those of the methods.
  | classDecl _ hname hsuper _ _ _ ih =>
    simp only [allSpelled_append, allSpelled_cons] at hw
    have hmethods := ih hw.2.2.2.2.1
    refine ⟨?_, hw.2.1.identifier hname, hmethods.2⟩
    cases hsuper with
    | absent => exact hmethods.1
    | present _ hparent =>
      simp only [allSpelled_cons] at hw
      exact fitting_cons.mpr ⟨hw.2.2.1.2.1.identifier hparent, hmethods.1⟩
  | funDecl _ _ ih => exact ih (allSpelled_cons.mp hw).2
  | varDecl hvar => exact hvar.proper hw
  | plain _ ih => exact (ih hw).1
  | declarationsEnd => exact ⟨fitting_nil, trivial⟩
  -- Statements in a row have their occurrences in a row and are proper one by one.
  | declarationsMore _ _ ih ih' =>
    rw [allSpelled_append] at hw
    have hfirst := ih hw.1
    have hrest := ih' hw.2
    exact ⟨fitting_append.mpr ⟨hfirst.1, hrest.1⟩, hfirst.2, hrest.2⟩
  | function hname _ hparameters _ _ _ _ ih =>
    simp only [allSpelled_append, allSpelled_cons] at hw
    have hbody := ih hw.2.2.2.2.2.1
    exact ⟨hbody.1, hw.1.identifier hname, hparameters.isName hw.2.2.1, hbody.2⟩
  | functionsEnd => exact ⟨fitting_nil, trivial⟩
  | functionsMore _ _ ih ih' =>
    rw [allSpelled_append] at hw
    have hfirst := ih hw.1
    have hrest := ih' hw.2
    exact ⟨fitting_append.mpr ⟨hfirst.1, hrest.1⟩, hfirst.2.2, hrest.2⟩
  | exprStmt he => exact he.proper hw
  -- A `for` is proper as the loop that it abbreviates.
  | forStmt _ _ hinit hcondition _ hincrement _ _ ih =>
    simp only [allSpelled_append, allSpelled_cons] at hw
    exact proper_forTree hinit hcondition hincrement hw.2.2.1 hw.2.2.2.1 hw.2.2.2.2.2.1
      (ih hw.2.2.2.2.2.2.2)
  -- A branch is a statement that declares nothing, as `Shaped` asks of it.
  | ifStmt _ _ hcondition _ _ ih =>
    simp only [allSpelled_append, allSpelled_cons] at hw
    have hthen := ih hw.2.2.2.2
    exact ⟨⟨fitting_append.mpr ⟨hcondition.fitting hw.2.2.1, hthen.1.1⟩, hthen.2, hthen.1.2⟩, rfl⟩
  | ifElseStmt _ _ hcondition _ _ _ _ _ ih ih' =>
    simp only [allSpelled_append, allSpelled_cons] at hw
    have hthen := ih hw.2.2.2.2.1
    have helse := ih' hw.2.2.2.2.2.2
    have htest := hcondition.fitting hw.2.2.1
    refine ⟨⟨?_, ⟨hthen.2, hthen.1.2⟩, helse.2, helse.1.2⟩, rfl⟩
    exact fitting_append.mpr ⟨fitting_append.mpr ⟨htest, hthen.1.1⟩, helse.1.1⟩
  | returnStmt _ hvalue _ =>
    simp only [allSpelled_append, allSpelled_cons] at hw
    exact ⟨⟨hvalue.fitting hw.2.1, trivial⟩, rfl⟩
  | whileStmt _ _ hcondition _ _ ih =>
    simp only [allSpelled_append, allSpelled_cons] at hw
    have hbody := ih hw.2.2.2.2
    refine ⟨⟨?_, hbody.2, hbody.1.2⟩, rfl⟩
    exact fitting_append.mpr
      ⟨fitting_append.mpr ⟨hcondition.fitting hw.2.2.1, hbody.1.1⟩, fitting_nil⟩
  | breakStmt => exact ⟨⟨fitting_nil, trivial⟩, rfl⟩
  | continueStmt => exact ⟨⟨fitting_nil, trivial⟩, rfl⟩
  | block _ _ _ ih =>
    simp only [allSpelled_append, allSpelled_cons] at hw
    exact ⟨ih hw.2.1, rfl⟩

end Grammar

end Lox
