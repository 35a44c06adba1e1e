import Lox.Proofs.Tree.Reading

/-!
# Trees come back from their forms

A tree whose names are names and whose operators are operators comes back from its form,
but for identities and lines, if none of its literals is a string or an infinite number.
There is one lemma for each construct.
-/

namespace Lox

/-! ### The literals of a tree -/

mutual

def Expr.literals : Expr → List Literal
  | .literal value => [value]
  | .unary _ operand => operand.literals
  | .binary left _ right | .logical left _ right => left.literals ++ right.literals
  | .group inner => inner.literals
  | .read _ => []
  | .assign _ value => value.literals
  | .call callee _ arguments => callee.literals ++ Expr.literalsEach arguments
  | .get object _ => object.literals
  | .set object _ value => object.literals ++ value.literals
  | .this _ => []
  | .super _ _ => []
termination_by structural e => e

def Expr.literalsEach : List Expr → List Literal
  | [] => []
  | e :: rest => e.literals ++ Expr.literalsEach rest
termination_by structural es => es

end

def Expr.literalsIn? : Option Expr → List Literal
  | none => []
  | some e => e.literals

mutual

def Stmt.literals : Stmt → List Literal
  | .expression value => value.literals
  | .var _ initializer => Expr.literalsIn? initializer
  | .block body => Stmt.literalsEach body
  | .conditional condition thenBranch none => condition.literals ++ thenBranch.literals
  | .conditional condition thenBranch (some elseBranch) =>
    condition.literals ++ (thenBranch.literals ++ elseBranch.literals)
  | .loop condition body increment =>
    condition.literals ++ (body.literals ++ Expr.literalsIn? increment)
  | .function declaration => declaration.literals
  | .returning _ value => Expr.literalsIn? value
  | .breaking _ => []
  | .continuing _ => []
  | .class _ _ methods => FunctionDecl.literalsEach methods
termination_by structural s => s

def Stmt.literalsEach : List Stmt → List Literal
  | [] => []
  | s :: rest => s.literals ++ Stmt.literalsEach rest
termination_by structural ss => ss

def FunctionDecl.literals : FunctionDecl → List Literal
  | ⟨_, _, body⟩ => Stmt.literalsEach body
termination_by structural d => d

def FunctionDecl.literalsEach : List FunctionDecl → List Literal
  | [] => []
  | d :: rest => d.literals ++ FunctionDecl.literalsEach rest
termination_by structural ds => ds

end

def Plain (values : List Literal) : Prop := ∀ value ∈ values, value.isPlain = true

@[simp]
theorem plain_append {first second : List Literal} :
    Plain (first ++ second) ↔ Plain first ∧ Plain second :=
  List.forall_mem_append

/-! ### Expressions -/

namespace Expr

/-- The expression comes back from its form if its literals are plain. -/
def ReadsBack (e : Expr) : Prop :=
  Plain e.literals → e.form.Proper ∧ e.form.read.toExpr = e.bare

def ReadsBackEach (es : List Expr) : Prop :=
  Plain (literalsEach es) → Form.ProperEach (formEach es) ∧
    (Form.readEach (formEach es)).map Form.Reading.toExpr = bareEach es

variable {e left right object callee value : Expr} {t paren : Token}

theorem readsBackEach_nil : ReadsBackEach [] := fun _ => ⟨trivial, rfl⟩

theorem ReadsBackEach.cons {es : List Expr} (he : e.ReadsBack) (hes : ReadsBackEach es) :
    ReadsBackEach (e :: es) := by
  intro hplain
  obtain ⟨hfirst, hrest⟩ := plain_append.mp hplain
  obtain ⟨hproper, hread⟩ := he hfirst
  obtain ⟨hproperEach, hreadEach⟩ := hes hrest
  refine ⟨⟨hproper, hproperEach⟩, ?_⟩
  rw [formEach, Form.readEach, List.map_cons, hread, hreadEach, bareEach]

theorem readsBack_literal {value : Literal} (h : value.ReadsBack) :
    (Expr.literal value).ReadsBack := fun hplain => h (hplain value List.mem_cons_self)

/-- A node with an operator is read as one. -/
theorem ofNode_operator (ht : t.Readable) (hkind : t.kind ∈ Form.operators.map Prod.snd)
    (parts : List Form.Reading) :
    Form.Reading.ofNode t.lexeme parts = .ofOperator t.bare parts := by
  rw [Form.Reading.ofNode, (ht.operator hkind).1]
  rfl

theorem ReadsBack.unary (ht : t.Readable) (hkind : t.kind ∈ Form.operators.map Prod.snd)
    (h : e.ReadsBack) : (Expr.unary t e).ReadsBack := by
  intro hplain
  obtain ⟨hproper, hread⟩ := h hplain
  refine ⟨⟨(ht.operator hkind).2, hproper, trivial⟩, ?_⟩
  rw [form, Form.read, ofNode_operator ht hkind]
  show Expr.unary t.bare e.form.read.toExpr = _
  rw [hread, bare]

/-- An operator between two operands that come back says which of the two trees it stands for. -/
theorem ReadsBack.operation (ht : t.Readable) (hkind : t.kind ∈ Form.operators.map Prod.snd)
    (hleft : left.ReadsBack) (hright : right.ReadsBack)
    (hplain : Plain (left.literals ++ right.literals)) :
    (Form.node t.lexeme [left.form, right.form]).Proper ∧
      (Form.node t.lexeme [left.form, right.form]).read =
        if t.kind = .kwAnd ∨ t.kind = .kwOr then .expr (.logical left.bare t.bare right.bare)
        else .expr (.binary left.bare t.bare right.bare) := by
  obtain ⟨hl, hr⟩ := plain_append.mp hplain
  obtain ⟨hproper, hread⟩ := hleft hl
  obtain ⟨hproper', hread'⟩ := hright hr
  refine ⟨⟨(ht.operator hkind).2, hproper, hproper', trivial⟩, ?_⟩
  rw [Form.read, ofNode_operator ht hkind, Form.readEach, Form.readEach, Form.readEach,
    Form.Reading.ofOperator, hread, hread']
  rfl

theorem ReadsBack.logical (ht : t.Readable) (hkind : t.kind = .kwAnd ∨ t.kind = .kwOr)
    (hleft : left.ReadsBack) (hright : right.ReadsBack) :
    (Expr.logical left t right).ReadsBack := by
  intro hplain
  have hoperator : t.kind ∈ Form.operators.map Prod.snd := by
    rcases hkind with h | h <;> rw [h] <;> decide
  obtain ⟨hproper, hread⟩ := hleft.operation ht hoperator hright hplain
  refine ⟨hproper, ?_⟩
  rw [form, hread, if_pos hkind, bare]
  rfl

theorem ReadsBack.binary (ht : t.Readable) (hoperator : t.kind ∈ Form.operators.map Prod.snd)
    (hkind : ¬ (t.kind = .kwAnd ∨ t.kind = .kwOr))
    (hleft : left.ReadsBack) (hright : right.ReadsBack) :
    (Expr.binary left t right).ReadsBack := by
  intro hplain
  obtain ⟨hproper, hread⟩ := hleft.operation ht hoperator hright hplain
  refine ⟨hproper, ?_⟩
  rw [form, hread, if_neg hkind, bare]
  rfl

theorem ReadsBack.group (h : e.ReadsBack) : (Expr.group e).ReadsBack := by
  intro hplain
  obtain ⟨hproper, hread⟩ := h hplain
  refine ⟨⟨by decide, hproper, trivial⟩, ?_⟩
  show Expr.group e.form.read.toExpr = _
  rw [hread, bare]

theorem readsBack_read {id : NodeId} (ht : t.Names) : (Expr.read ⟨id, t⟩).ReadsBack := by
  intro _
  refine ⟨ht.solid, ?_⟩
  show Form.Reading.ofWord t.lexeme = .read ⟨0, t.bare⟩
  rw [ht.ofWord, ht.bare_eq]

theorem ReadsBack.assign {id : NodeId} (ht : t.Names) (h : value.ReadsBack) :
    (Expr.assign ⟨id, t⟩ value).ReadsBack := by
  intro hplain
  obtain ⟨hproper, hread⟩ := h hplain
  refine ⟨⟨by decide, ht.solid, hproper, trivial⟩, ?_⟩
  show Expr.assign ⟨0, Form.identifier t.lexeme⟩ value.form.read.toExpr = .assign ⟨0, t.bare⟩ value.bare
  rw [hread, ht.bare_eq]

theorem ReadsBack.call {arguments : List Expr} (hparen : paren.bare = ⟨.rightParen, ")", 0⟩)
    (hcallee : callee.ReadsBack) (harguments : ReadsBackEach arguments) :
    (Expr.call callee paren arguments).ReadsBack := by
  intro hplain
  obtain ⟨hl, hr⟩ := plain_append.mp hplain
  obtain ⟨hproper, hread⟩ := hcallee hl
  obtain ⟨hproperEach, hreadEach⟩ := harguments hr
  refine ⟨⟨by decide, hproper, hproperEach⟩, ?_⟩
  show Expr.call callee.form.read.toExpr ⟨.rightParen, ")", 0⟩
    ((Form.readEach (formEach arguments)).map Form.Reading.toExpr) = _
  rw [hread, hreadEach, bare, hparen]

theorem ReadsBack.get (ht : t.Names) (h : object.ReadsBack) : (Expr.get object t).ReadsBack := by
  intro hplain
  obtain ⟨hproper, hread⟩ := h hplain
  refine ⟨⟨by decide, hproper, ht.solid, trivial⟩, ?_⟩
  show Expr.get object.form.read.toExpr (Form.identifier t.lexeme) = _
  rw [hread, bare, ht.bare_eq]

theorem ReadsBack.set (ht : t.Names) (hobject : object.ReadsBack) (hvalue : value.ReadsBack) :
    (Expr.set object t value).ReadsBack := by
  intro hplain
  obtain ⟨hl, hr⟩ := plain_append.mp hplain
  obtain ⟨hproper, hread⟩ := hobject hl
  obtain ⟨hproper', hread'⟩ := hvalue hr
  refine ⟨⟨by decide, ⟨by decide, hproper, ht.solid, trivial⟩, hproper', trivial⟩, ?_⟩
  show Expr.set object.form.read.toExpr (Form.identifier t.lexeme) value.form.read.toExpr = _
  rw [hread, hread', bare, ht.bare_eq]

theorem readsBack_this {id : NodeId} (ht : t.bare = ⟨.kwThis, "this", 0⟩) :
    (Expr.this ⟨id, t⟩).ReadsBack := by
  intro _
  have hsolid : Form.Solid "this" := by decide
  refine ⟨hsolid, ?_⟩
  show Expr.this ⟨0, ⟨.kwThis, "this", 0⟩⟩ = .this ⟨0, t.bare⟩
  rw [ht]

theorem readsBack_super {id : NodeId} {keyword : Token} (hkeyword : keyword.bare = ⟨.kwSuper, "super", 0⟩)
    (ht : t.Names) : (Expr.super ⟨id, keyword⟩ t).ReadsBack := by
  intro _
  refine ⟨⟨by decide, ht.solid, trivial⟩, ?_⟩
  show Expr.super ⟨0, ⟨.kwSuper, "super", 0⟩⟩ (Form.identifier t.lexeme) =
    .super ⟨0, keyword.bare⟩ t.bare
  rw [hkeyword, ht.bare_eq]

end Expr

/-! ### Statements -/

mutual

def Stmt.within : Stmt → List Stmt
  | .block body => .block body :: Stmt.withinEach body
  | .conditional condition thenBranch none =>
    .conditional condition thenBranch none :: thenBranch.within
  | .conditional condition thenBranch (some elseBranch) =>
    .conditional condition thenBranch (some elseBranch) :: (thenBranch.within ++ elseBranch.within)
  | .loop condition body increment => .loop condition body increment :: body.within
  | .function declaration => .function declaration :: declaration.within
  | .class name superclass methods =>
    .class name superclass methods :: FunctionDecl.withinEach methods
  | s => [s]
termination_by structural s => s

def Stmt.withinEach : List Stmt → List Stmt
  | [] => []
  | s :: rest => s.within ++ Stmt.withinEach rest
termination_by structural ss => ss

def FunctionDecl.within : FunctionDecl → List Stmt
  | ⟨_, _, body⟩ => Stmt.withinEach body
termination_by structural d => d

def FunctionDecl.withinEach : List FunctionDecl → List Stmt
  | [] => []
  | d :: rest => d.within ++ FunctionDecl.withinEach rest
termination_by structural ds => ds

end

theorem Stmt.mem_within (s : Stmt) : s ∈ s.within := by
  rcases s with _ | _ | _ | ⟨_, _, _ | _⟩ | _ | _ | _ | _ | _ | _ <;> simp [within]

def Stmt.ReadsBack (s : Stmt) : Prop :=
  Plain s.literals → s.form.Proper ∧ s.form.read.toStmt = s.bare

def Stmt.ReadsBackEach (ss : List Stmt) : Prop :=
  Plain (literalsEach ss) → Form.ProperEach (formEach ss) ∧
    (Form.readEach (formEach ss)).map Form.Reading.toStmt = bareEach ss

def FunctionDecl.ReadsBack (d : FunctionDecl) : Prop :=
  Plain d.literals → (∀ word, Form.Solid word → (d.form word).Proper) ∧
    (d.form "fun").read.toStmt = .function d.bare ∧ (d.form "method").read = .function d.bare

def FunctionDecl.ReadsBackEach (ds : List FunctionDecl) : Prop :=
  Plain (literalsEach ds) → Form.ProperEach (formEach ds) ∧
    Form.readEach (formEach ds) = (bareEach ds).map Form.Reading.function

namespace FunctionDecl

variable {d : FunctionDecl} {name : Token} {parameters : List Token} {body : List Stmt}

theorem ReadsBack.mk (hname : name.Names) (hparameters : ∀ t ∈ parameters, t.Names)
    (hbody : Stmt.ReadsBackEach body) : ReadsBack ⟨name, parameters, body⟩ := by
  intro hplain
  obtain ⟨hproper, hread⟩ := hbody hplain
  have hnames : (parameters.map Token.lexeme).map Form.identifier = parameters.map Token.bare := by
    rw [List.map_map]
    exact List.map_congr_left fun t ht => ((hparameters t ht).bare_eq).symm
  have hdecl : FunctionDecl.mk (Form.identifier name.lexeme)
      ((parameters.map Token.lexeme).map Form.identifier)
      ((Form.readEach (Stmt.formEach body)).map Form.Reading.toStmt) =
      bare ⟨name, parameters, body⟩ := by
    rw [bare, hnames, hread, hname.bare_eq]
  refine ⟨fun word hword => ⟨hword, ⟨hname.solid, ?_⟩, ⟨by decide, hproper⟩, trivial⟩, ?_, ?_⟩
  · exact List.forall_mem_map.mpr fun t ht => (hparameters t ht).solid
  · exact congrArg Stmt.function hdecl
  · exact congrArg Form.Reading.function hdecl

theorem readsBackEach_nil : ReadsBackEach [] := fun _ => ⟨trivial, rfl⟩

theorem ReadsBackEach.cons {ds : List FunctionDecl} (hd : d.ReadsBack) (hds : ReadsBackEach ds) :
    ReadsBackEach (d :: ds) := by
  intro hplain
  obtain ⟨hfirst, hrest⟩ := plain_append.mp hplain
  obtain ⟨hproper, -, hread⟩ := hd hfirst
  obtain ⟨hproperEach, hreadEach⟩ := hds hrest
  refine ⟨⟨hproper "method" (by decide), hproperEach⟩, ?_⟩
  rw [formEach, Form.readEach, hread, hreadEach, bareEach, List.map_cons]

end FunctionDecl

namespace Stmt

variable {s thenBranch elseBranch body : Stmt} {e condition : Expr} {t name : Token}
  {methods : List FunctionDecl}

theorem readsBackEach_nil : ReadsBackEach [] := fun _ => ⟨trivial, rfl⟩

theorem ReadsBackEach.cons {ss : List Stmt} (hs : s.ReadsBack) (hss : ReadsBackEach ss) :
    ReadsBackEach (s :: ss) := by
  intro hplain
  obtain ⟨hfirst, hrest⟩ := plain_append.mp hplain
  obtain ⟨hproper, hread⟩ := hs hfirst
  obtain ⟨hproperEach, hreadEach⟩ := hss hrest
  refine ⟨⟨hproper, hproperEach⟩, ?_⟩
  rw [formEach, Form.readEach, List.map_cons, hread, hreadEach, bareEach]

theorem readsBackEach_of_within {ss : List Stmt} (h : ∀ x ∈ withinEach ss, x.ReadsBack) :
    ReadsBackEach ss := by
  induction ss with
  | nil => exact readsBackEach_nil
  | cons s rest ih =>
    obtain ⟨hs, hrest⟩ := List.forall_mem_append.mp h
    exact .cons (hs s s.mem_within) (ih hrest)

theorem ReadsBack.expression (h : e.ReadsBack) : (Stmt.expression e).ReadsBack := by
  intro hplain
  obtain ⟨hproper, hread⟩ := h hplain
  refine ⟨⟨by decide, hproper, trivial⟩, ?_⟩
  show Stmt.expression e.form.read.toExpr = _
  rw [hread, bare]

theorem readsBack_var {initializer : Option Expr} (hname : name.Names)
    (h : ∀ e ∈ initializer, e.ReadsBack) : (Stmt.var name initializer).ReadsBack := by
  intro hplain
  rcases initializer with _ | e
  · refine ⟨⟨by decide, hname.solid, trivial⟩, ?_⟩
    show Stmt.var (Form.identifier name.lexeme) none = .var name.bare none
    rw [hname.bare_eq]
  · obtain ⟨hproper, hread⟩ := h e rfl hplain
    refine ⟨⟨by decide, hname.solid, hproper, trivial⟩, ?_⟩
    show Stmt.var (Form.identifier name.lexeme) (some e.form.read.toExpr) =
      .var name.bare (some e.bare)
    rw [hread, hname.bare_eq]

theorem ReadsBackEach.block {body : List Stmt} (h : ReadsBackEach body) :
    (Stmt.block body).ReadsBack := by
  intro hplain
  obtain ⟨hproper, hread⟩ := h hplain
  refine ⟨⟨by decide, hproper⟩, ?_⟩
  show Stmt.block ((Form.readEach (formEach body)).map Form.Reading.toStmt) = _
  rw [hread, bare]

theorem ReadsBack.conditional (hcondition : condition.ReadsBack) (hthen : thenBranch.ReadsBack) :
    (Stmt.conditional condition thenBranch none).ReadsBack := by
  intro hplain
  obtain ⟨hl, hr⟩ := plain_append.mp hplain
  obtain ⟨hproper, hread⟩ := hcondition hl
  obtain ⟨hproper', hread'⟩ := hthen hr
  refine ⟨⟨by decide, hproper, hproper', trivial⟩, ?_⟩
  show Stmt.conditional condition.form.read.toExpr thenBranch.form.read.toStmt none = _
  rw [hread, hread', bare]

theorem ReadsBack.alternative (hcondition : condition.ReadsBack) (hthen : thenBranch.ReadsBack)
    (helse : elseBranch.ReadsBack) :
    (Stmt.conditional condition thenBranch (some elseBranch)).ReadsBack := by
  intro hplain
  obtain ⟨hc, hbranches⟩ := plain_append.mp hplain
  obtain ⟨ht, he⟩ := plain_append.mp hbranches
  obtain ⟨hproper, hread⟩ := hcondition hc
  obtain ⟨hproper', hread'⟩ := hthen ht
  obtain ⟨hproper'', hread''⟩ := helse he
  refine ⟨⟨by decide, hproper, hproper', hproper'', trivial⟩, ?_⟩
  show Stmt.conditional condition.form.read.toExpr thenBranch.form.read.toStmt
    (some elseBranch.form.read.toStmt) = _
  rw [hread, hread', hread'', bare]

theorem ReadsBack.loop {increment : Option Expr} (hcondition : condition.ReadsBack)
    (hbody : body.ReadsBack) (hincrement : ∀ e ∈ increment, e.ReadsBack) :
    (Stmt.loop condition body increment).ReadsBack := by
  intro hplain
  obtain ⟨hc, hbehind⟩ := plain_append.mp hplain
  obtain ⟨hb, hi⟩ := plain_append.mp hbehind
  obtain ⟨hproper, hread⟩ := hcondition hc
  obtain ⟨hproper', hread'⟩ := hbody hb
  rcases increment with _ | e
  · refine ⟨⟨by decide, hproper, hproper', trivial⟩, ?_⟩
    show Stmt.loop condition.form.read.toExpr body.form.read.toStmt none = .loop _ _ none
    rw [hread, hread']
  · obtain ⟨hproper'', hread''⟩ := hincrement e rfl hi
    refine ⟨⟨by decide, hproper, hproper', hproper'', trivial⟩, ?_⟩
    show Stmt.loop condition.form.read.toExpr body.form.read.toStmt (some e.form.read.toExpr) =
      .loop _ _ (some e.bare)
    rw [hread, hread', hread'']

theorem readsBack_function {d : FunctionDecl} (h : d.ReadsBack) :
    (Stmt.function d).ReadsBack := by
  intro hplain
  obtain ⟨hproper, hread, -⟩ := h hplain
  refine ⟨hproper "fun" (by decide), ?_⟩
  rw [form, hread, bare]

theorem readsBack_returning {value : Option Expr} (ht : t.bare = ⟨.kwReturn, "return", 0⟩)
    (h : ∀ e ∈ value, e.ReadsBack) : (Stmt.returning t value).ReadsBack := by
  intro hplain
  rcases value with _ | e
  · refine ⟨⟨by decide, trivial⟩, ?_⟩
    show Stmt.returning ⟨.kwReturn, "return", 0⟩ none = .returning t.bare none
    rw [ht]
  · obtain ⟨hproper, hread⟩ := h e rfl hplain
    refine ⟨⟨by decide, hproper, trivial⟩, ?_⟩
    show Stmt.returning ⟨.kwReturn, "return", 0⟩ (some e.form.read.toExpr) =
      .returning t.bare (some e.bare)
    rw [hread, ht]

theorem readsBack_breaking (ht : t.bare = ⟨.kwBreak, "break", 0⟩) :
    (Stmt.breaking t).ReadsBack := by
  intro _
  refine ⟨⟨by decide, trivial⟩, ?_⟩
  rw [bare, ht]
  rfl

theorem readsBack_continuing (ht : t.bare = ⟨.kwContinue, "continue", 0⟩) :
    (Stmt.continuing t).ReadsBack := by
  intro _
  refine ⟨⟨by decide, trivial⟩, ?_⟩
  rw [bare, ht]
  rfl

/-- Methods are never taken for a superclass. -/
theorem ofClass_methods (name : String) (methods : List FunctionDecl) :
    Form.Reading.ofClass name (methods.map .function) =
      .class (Form.identifier name) none methods := by
  have hsame : (methods.map Form.Reading.function).map Form.Reading.toFunction = methods := by
    simp [Form.Reading.toFunction, Function.comp_def]
  rcases methods with _ | ⟨d, methods⟩
  · rfl
  · exact congrArg (Stmt.class (Form.identifier name) none) hsame

theorem ofClass_superclass (name superclass : String) (methods : List FunctionDecl) :
    Form.Reading.ofClass name (.word "<" :: .word superclass :: methods.map .function) =
      .class (Form.identifier name) (some ⟨0, Form.identifier superclass⟩) methods := by
  simp [Form.Reading.ofClass, Form.Reading.toFunction, Function.comp_def]

theorem readsBack_class {superclass : Option Occurrence} (hname : name.Names)
    (hsuperclass : ∀ place ∈ superclass, place.token.Names)
    (h : FunctionDecl.ReadsBackEach methods) : (Stmt.class name superclass methods).ReadsBack := by
  intro hplain
  obtain ⟨hproper, hread⟩ := h hplain
  rcases superclass with _ | ⟨id, t⟩
  · refine ⟨⟨by decide, hname.solid, hproper⟩, ?_⟩
    show Form.Reading.ofClass name.lexeme (Form.readEach (FunctionDecl.formEach methods)) =
      .class name.bare none _
    rw [hread, ofClass_methods, hname.bare_eq]
  · have ht : t.Names := hsuperclass _ rfl
    have hless : Form.Solid "<" := by decide
    refine ⟨⟨by decide, hname.solid, hless, ht.solid, hproper⟩, ?_⟩
    show Form.Reading.ofClass name.lexeme (.word "<" :: .word t.lexeme ::
      Form.readEach (FunctionDecl.formEach methods)) = .class name.bare (some ⟨0, t.bare⟩) _
    rw [hread, ofClass_superclass, hname.bare_eq, ht.bare_eq]

end Stmt

end Lox
