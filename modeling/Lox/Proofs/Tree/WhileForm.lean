import Lox.Proofs.Grammar
import Lox.Proofs.Resolution.LocalScopes

/-!
# Loops written with `while`

A `for` loop is short for a `while` loop in a block of its own: the initializer stands in
front of it, and the increment at the end of its body and in front of each `continue` that
belongs to it.  Here is this long form as a tree, and what it means that some statements of
a program are replaced by others.
-/

namespace Lox

/-! ### The long form of a loop -/

/-- The statements that evaluate the increment of a loop, if it has one. -/
def Stmt.steps : Option Expr → List Stmt
  | none => []
  | some step => [.expression step]

mutual

/-- The body of a loop, in which each `continue` that belongs to it also does its increment. -/
def Stmt.stepping (increment : Option Expr) : Stmt → Stmt
  | .block body => .block (Stmt.steppingEach increment body)
  | .conditional condition thenBranch none =>
    .conditional condition (thenBranch.stepping increment) none
  | .conditional condition thenBranch (some elseBranch) =>
    .conditional condition (thenBranch.stepping increment) (some (elseBranch.stepping increment))
  | .continuing keyword => .block (Stmt.steps increment ++ [.continuing keyword])
  -- a `continue` in here belongs to another loop
  | .loop condition body step => .loop condition body step
  | .function declaration => .function declaration
  | .class name superclass methods => .class name superclass methods
  | .expression value => .expression value
  | .var name initializer => .var name initializer
  | .returning keyword value => .returning keyword value
  | .breaking keyword => .breaking keyword
termination_by structural s => s

def Stmt.steppingEach (increment : Option Expr) : List Stmt → List Stmt
  | [] => []
  | s :: rest => s.stepping increment :: Stmt.steppingEach increment rest
termination_by structural ss => ss

end

/-- What a `for` loop is short for. -/
def Grammar.whileTree (initializer : Option Stmt) (condition increment : Option Expr)
    (body : Stmt) : Stmt :=
  .block (initializer.toList ++ [.loop (condition.getD (.literal (.bool true)))
    (.block (body.stepping increment :: Stmt.steps increment)) none])

/-- The name does not occur in the increment of a loop. -/
def FreeOf (increment : Option Expr) (name : String) : Prop :=
  ∀ entry ∈ Expr.occurrencesIn? increment, entry.2.name ≠ name

theorem FreeOf.none (name : String) : FreeOf .none name := fun _ h => absurd h List.not_mem_nil

/-- None of the names that the scope declares occurs in the increment. -/
def LocalScope.SparedBy (scope : LocalScope) (increment : Option Expr) : Prop :=
  ∀ d ∈ scope, FreeOf increment d.name.lexeme

/-- No scope inside of a statement declares a name that occurs in the increment. -/
def Stmt.Spares (s : Stmt) (increment : Option Expr) : Prop :=
  ∀ scope ∈ s.localScopes, scope.SparedBy increment

/-- A `for` loop and its long form, where no name of the increment is declared inside the body. -/
inductive Grammar.Unrolls : Stmt → Stmt → Prop where
  | mk {initializer : Option Stmt} {condition increment : Option Expr} {body : Stmt} :
      body.Spares increment →
      Unrolls (forTree initializer condition increment body)
        (whileTree initializer condition increment body)

instance (s : Stmt) (increment : Option Expr) : Decidable (s.Spares increment) :=
  inferInstanceAs (Decidable (∀ scope ∈ s.localScopes, ∀ d ∈ scope,
    ∀ entry ∈ Expr.occurrencesIn? increment, entry.2.name ≠ d.name.lexeme))

/-- The long form of a loop with an initializer, where it means the same, and other statements. -/
def Stmt.unrolled : Stmt → Stmt
  | .block [first, .loop condition body increment] =>
    if body.Spares increment then Grammar.whileTree (some first) (some condition) increment body
    else .block [first, .loop condition body increment]
  | s => s

/-! ### Replacing statements -/

section

variable (base : Stmt → Stmt → Prop)

mutual

/-- Some statements in a statement are replaced by those they are related to. -/
inductive StmtReplaced : Stmt → Stmt → Prop where
  | same {s : Stmt} : StmtReplaced s s
  | here {s s' : Stmt} : base s s' → StmtReplaced s s'
  | block {body body' : List Stmt} :
      StmtEachReplaced body body' → StmtReplaced (.block body) (.block body')
  | conditional {condition : Expr} {thenBranch thenBranch' : Stmt} :
      StmtReplaced thenBranch thenBranch' →
      StmtReplaced (.conditional condition thenBranch none) (.conditional condition thenBranch' none)
  | alternative {condition : Expr} {thenBranch thenBranch' elseBranch elseBranch' : Stmt} :
      StmtReplaced thenBranch thenBranch' → StmtReplaced elseBranch elseBranch' →
      StmtReplaced (.conditional condition thenBranch (some elseBranch))
        (.conditional condition thenBranch' (some elseBranch'))
  | loop {condition : Expr} {body body' : Stmt} {increment : Option Expr} :
      StmtReplaced body body' →
      StmtReplaced (.loop condition body increment) (.loop condition body' increment)
  | function {d d' : FunctionDecl} :
      FunctionReplaced d d' → StmtReplaced (.function d) (.function d')
  | class {name : Token} {superclass : Option Occurrence} {methods methods' : List FunctionDecl} :
      FunctionEachReplaced methods methods' →
      StmtReplaced (.class name superclass methods) (.class name superclass methods')

inductive StmtEachReplaced : List Stmt → List Stmt → Prop where
  | nil : StmtEachReplaced [] []
  | cons {s s' : Stmt} {rest rest' : List Stmt} :
      StmtReplaced s s' → StmtEachReplaced rest rest' →
      StmtEachReplaced (s :: rest) (s' :: rest')

inductive FunctionReplaced : FunctionDecl → FunctionDecl → Prop where
  | mk {name : Token} {parameters : List Token} {body body' : List Stmt} :
      StmtEachReplaced body body' →
      FunctionReplaced ⟨name, parameters, body⟩ ⟨name, parameters, body'⟩

inductive FunctionEachReplaced : List FunctionDecl → List FunctionDecl → Prop where
  | nil : FunctionEachReplaced [] []
  | cons {d d' : FunctionDecl} {rest rest' : List FunctionDecl} :
      FunctionReplaced d d' → FunctionEachReplaced rest rest' →
      FunctionEachReplaced (d :: rest) (d' :: rest')

end

end

theorem Stmt.replaced_unrolled (s : Stmt) : StmtReplaced Grammar.Unrolls s s.unrolled := by
  unfold Stmt.unrolled
  split
  · rename_i first condition body increment
    split
    · rename_i hspares
      have hloop : Grammar.Unrolls
          (Grammar.forTree (some first) (some condition) increment body) _ := .mk hspares
      exact .here hloop
    · exact .same
  · exact .same

/-- All loops at top level can be replaced. -/
theorem Stmt.replaced_map_unrolled (ss : List Stmt) :
    StmtEachReplaced Grammar.Unrolls ss (ss.map Stmt.unrolled) := by
  induction ss with
  | nil => exact .nil
  | cons s rest ih => exact .cons s.replaced_unrolled ih

/-- The `continue` of a loop, and that which does its increment first. -/
inductive Steps (increment : Option Expr) : Stmt → Stmt → Prop where
  | mk {keyword : Token} :
      Steps increment (.continuing keyword) (.block (Stmt.steps increment ++ [.continuing keyword]))

mutual

/-- In the body of a loop nothing but its `continue` statements is replaced. -/
theorem Stmt.replaced_stepping (increment : Option Expr) :
    (s : Stmt) → StmtReplaced (Steps increment) s (s.stepping increment)
  | .block body => .block (Stmt.replaced_steppingEach increment body)
  | .conditional _ thenBranch none => .conditional (thenBranch.replaced_stepping increment)
  | .conditional _ thenBranch (some elseBranch) =>
    .alternative (thenBranch.replaced_stepping increment) (elseBranch.replaced_stepping increment)
  | .continuing _ => .here .mk
  | .loop _ _ _ | .function _ | .class _ _ _ | .expression _ | .var _ _ | .returning _ _
  | .breaking _ => .same
termination_by structural s => s

theorem Stmt.replaced_steppingEach (increment : Option Expr) :
    (ss : List Stmt) → StmtEachReplaced (Steps increment) ss (Stmt.steppingEach increment ss)
  | [] => .nil
  | s :: rest =>
    .cons (s.replaced_stepping increment) (Stmt.replaced_steppingEach increment rest)
termination_by structural ss => ss

end

namespace Grammar

/-! ### The parts of a derived statement -/

variable {attachment : Attachment} {ending : Ending} {s s' : Stmt} {w : List Token}

/-- What is derived if a statement is. -/
def Parts (attachment : Attachment) (ending : Ending) : Stmt → Prop
  | .block body => ∃ w, StmtDerives attachment (.declarations body) w
  | .conditional condition thenBranch none =>
    ending = .opened ∧ (∃ w, ExprDerives (.expression condition) w) ∧
      ∃ inner w, StmtDerives attachment (.statement inner thenBranch) w
  | .conditional condition thenBranch (some elseBranch) =>
    (∃ w, ExprDerives (.expression condition) w) ∧
      (∃ inner w, (attachment = .nearest → inner = .closed) ∧
        StmtDerives attachment (.statement inner thenBranch) w) ∧
      ∃ w, StmtDerives attachment (.statement ending elseBranch) w
  | .loop condition body increment =>
    (∃ given w, OptionalExpr given w ∧ condition = given.getD (.literal (.bool true))) ∧
      (∃ w, OptionalExpr increment w) ∧ ∃ w, StmtDerives attachment (.statement ending body) w
  | .var _ _ | .function _ | .class _ _ _ => False
  | .expression _ | .returning _ _ | .breaking _ | .continuing _ => True

/-- A token of a kind; the line it stands on matters to no rule. -/
def token (kind : TokenKind) : Token := ⟨kind, kind.spelling, 0⟩

/-- A loop can be written as a `for` loop without initializer. -/
theorem derives_loop {given increment : Option Expr} {body : Stmt} {w₁ w₂ w₃ : List Token}
    (hgiven : OptionalExpr given w₁) (hincrement : OptionalExpr increment w₂)
    (hbody : StmtDerives attachment (.statement ending body) w₃) :
    ∃ w, StmtDerives attachment
      (.statement ending (.loop (given.getD (.literal (.bool true))) body increment)) w := by
  have habsent : ForInit none [token .semicolon] := .absent rfl
  exact ⟨_, @StmtDerives.forStmt _ (token .kwFor) (token .leftParen) (token .semicolon)
    (token .rightParen) none given increment ending body _ w₁ w₂ w₃ rfl rfl habsent hgiven rfl
    hincrement rfl hbody⟩

theorem derives_block {body : List Stmt} (h : StmtDerives attachment (.declarations body) w) :
    ∃ w, StmtDerives attachment (.statement .closed (.block body)) w :=
  ⟨_, @StmtDerives.block _ (token .leftBrace) (token .rightBrace) body w rfl h rfl⟩

theorem ForInit.declaration {first : Stmt} (h : ForInit (some first) w) :
    ∃ w, StmtDerives attachment (.declaration first) w := by
  cases h with
  | var hvar => exact ⟨w, .varDecl hvar⟩
  | expression hexpression => exact ⟨w, .plain (.exprStmt hexpression)⟩

theorem StmtDerives.parts (h : StmtDerives attachment (.statement ending s) w) :
    Parts attachment ending s := by
  cases h with
  | exprStmt hexpression =>
    cases hexpression
    trivial
  | @forStmt _ _ _ _ initializer condition increment _ body _ _ _ _ _ _ hinit hcondition _
      hincrement _ hbody =>
    cases initializer with
    | none => exact ⟨⟨condition, _, hcondition, rfl⟩, ⟨_, hincrement⟩, _, hbody⟩
    | some first =>
      obtain ⟨w₁, hfirst⟩ := hinit.declaration
      obtain ⟨w₂, hloop⟩ := derives_loop hcondition hincrement hbody
      exact ⟨_, .declarationsMore hfirst (.declarationsMore (.plain hloop) .declarationsEnd)⟩
  | ifStmt _ _ hcondition _ hthen => exact ⟨rfl, ⟨_, hcondition⟩, _, _, hthen⟩
  | ifElseStmt _ _ hcondition _ hthen hnearest _ helse =>
    exact ⟨⟨_, hcondition⟩, ⟨_, _, hnearest, hthen⟩, _, helse⟩
  | whileStmt _ _ hcondition _ hbody =>
    exact ⟨⟨some _, _, .present hcondition, rfl⟩, ⟨[], .absent⟩, _, hbody⟩
  | block _ hbody _ => exact ⟨_, hbody⟩
  | returnStmt | breakStmt | continueStmt => trivial

/-- What declares nothing is derived as a statement. -/
theorem StmtDerives.statement (h : StmtDerives attachment (.declaration s) w)
    (hplain : s.declared? = none) :
    ∃ ending, StmtDerives attachment (.statement ending s) w := by
  cases h with
  | plain hstatement => exact ⟨_, hstatement⟩
  | varDecl hvar => cases hvar <;> cases hplain
  | classDecl | funDecl => cases hplain

/-! ### Replacing statements in a derived tree -/

/-- A statement can be derived in the place of another one. -/
def Serves (attachment : Attachment) (s s' : Stmt) : Prop :=
  (∀ ending w, StmtDerives attachment (.statement ending s) w →
    ∃ ending' w', (ending = .closed → ending' = .closed) ∧
      StmtDerives attachment (.statement ending' s') w') ∧
  ∀ w, StmtDerives attachment (.declaration s) w →
    ∃ w', StmtDerives attachment (.declaration s') w'

theorem Serves.of_statement (hplain : s.declared? = none)
    (h : ∀ ending w, StmtDerives attachment (.statement ending s) w →
      ∃ ending' w', (ending = .closed → ending' = .closed) ∧
        StmtDerives attachment (.statement ending' s') w') : Serves attachment s s' := by
  refine ⟨h, ?_⟩
  intro w hdeclaration
  obtain ⟨ending, hstatement⟩ := hdeclaration.statement hplain
  obtain ⟨ending', w', -, hstatement'⟩ := h ending w hstatement
  exact ⟨w', .plain hstatement'⟩

theorem Serves.refl (s : Stmt) : Serves attachment s s :=
  ⟨fun ending w h => ⟨ending, w, id, h⟩, fun w h => ⟨w, h⟩⟩

end Grammar

section

open Grammar

variable {base : Stmt → Stmt → Prop} {attachment : Attachment}

mutual

/-- If statements can stand where they are put, the whole tree can be derived. -/
theorem StmtReplaced.serves (hbase : ∀ s s', base s s' → Serves attachment s s') :
    {s s' : Stmt} → StmtReplaced base s s' → Serves attachment s s'
  -- Where nothing is replaced and where the pair itself is, the claim is at hand. In every other
  -- case the statement is taken apart, the replaced parts are derived, and it is put together.
  | _, _, .same => .refl _
  | _, _, .here h => hbase _ _ h
  | _, _, .block hbody => .of_statement rfl fun ending w h => by
    obtain ⟨w₁, hparts⟩ := h.parts
    obtain ⟨w₁', hbody'⟩ := hbody.serves hbase hparts
    obtain ⟨w', hblock⟩ := derives_block hbody'
    exact ⟨.closed, w', fun _ => rfl, hblock⟩
  -- An `if` without `else` leaves its end open, whatever its branch does.
  | _, _, .conditional hthen => .of_statement rfl fun ending w h => by
    obtain ⟨rfl, ⟨w₁, hcondition⟩, inner, w₂, hparts⟩ := h.parts
    obtain ⟨inner', w₂', -, hthen'⟩ := (hthen.serves hbase).1 _ _ hparts
    exact ⟨.opened, _, id, @StmtDerives.ifStmt _ (token .kwIf) (token .leftParen)
      (token .rightParen) _ _ _ _ _ rfl rfl hcondition rfl hthen'⟩
  -- The branch in front of an `else` must be closed, and its replacement is closed as well.
  | _, _, .alternative hthen helse => .of_statement rfl fun ending w h => by
    obtain ⟨⟨w₁, hcondition⟩, ⟨inner, w₂, hnearest, hparts⟩, w₃, hparts'⟩ := h.parts
    obtain ⟨inner', w₂', hclosed, hthen'⟩ := (hthen.serves hbase).1 _ _ hparts
    obtain ⟨ending', w₃', hending, helse'⟩ := (helse.serves hbase).1 _ _ hparts'
    exact ⟨ending', _, hending, @StmtDerives.ifElseStmt _ (token .kwIf) (token .leftParen)
      (token .rightParen) (token .kwElse) _ _ _ _ _ _ _ _ rfl rfl hcondition rfl hthen'
      (fun h => hclosed (hnearest h)) rfl helse'⟩
  | _, _, .loop hbody => .of_statement rfl fun ending w h => by
    obtain ⟨⟨given, w₁, hgiven, rfl⟩, ⟨w₂, hincrement⟩, w₃, hparts⟩ := h.parts
    obtain ⟨ending', w₃', hending, hbody'⟩ := (hbody.serves hbase).1 _ _ hparts
    obtain ⟨w', hloop⟩ := derives_loop hgiven hincrement hbody'
    exact ⟨ending', w', hending, hloop⟩
  -- A declaration is no statement, so it can only stand where declarations can.
  | _, _, .function hd => by
    refine ⟨fun ending w h => h.parts.elim, ?_⟩
    intro w h
    cases h with
    | funDecl hkeyword hfunction =>
      obtain ⟨w', hfunction'⟩ := hd.serves hbase hfunction
      exact ⟨_, .funDecl hkeyword hfunction'⟩
    | varDecl hvar => cases hvar
    | plain hstatement => exact hstatement.parts.elim
  | _, _, .class hmethods => by
    refine ⟨fun ending w h => h.parts.elim, ?_⟩
    intro w h
    cases h with
    | classDecl hkeyword hname hsuperclass hopening hfunctions hclosing =>
      obtain ⟨w', hfunctions'⟩ := hmethods.serves hbase hfunctions
      exact ⟨_, .classDecl hkeyword hname hsuperclass hopening hfunctions' hclosing⟩
    | varDecl hvar => cases hvar
    | plain hstatement => exact hstatement.parts.elim

theorem StmtEachReplaced.serves (hbase : ∀ s s', base s s' → Serves attachment s s') :
    {ss ss' : List Stmt} → StmtEachReplaced base ss ss' → {w : List Token} →
    StmtDerives attachment (.declarations ss) w →
    ∃ w', StmtDerives attachment (.declarations ss') w'
  | _, _, .nil, w, h => ⟨w, h⟩
  | _, _, .cons hs hrest, _, h => by
    cases h with
    | declarationsMore hfirst hmore =>
      obtain ⟨w₁, hfirst'⟩ := (hs.serves hbase).2 _ hfirst
      obtain ⟨w₂, hmore'⟩ := hrest.serves hbase hmore
      exact ⟨_, .declarationsMore hfirst' hmore'⟩

theorem FunctionReplaced.serves (hbase : ∀ s s', base s s' → Serves attachment s s') :
    {d d' : FunctionDecl} → FunctionReplaced base d d' → {w : List Token} →
    StmtDerives attachment (.function d) w → ∃ w', StmtDerives attachment (.function d') w'
  | _, _, .mk hbody, _, h => by
    cases h with
    | function hname hleft hparameters hright hopening hdeclarations hclosing =>
      obtain ⟨w', hdeclarations'⟩ := hbody.serves hbase hdeclarations
      exact ⟨_, .function hname hleft hparameters hright hopening hdeclarations' hclosing⟩

theorem FunctionEachReplaced.serves (hbase : ∀ s s', base s s' → Serves attachment s s') :
    {ds ds' : List FunctionDecl} → FunctionEachReplaced base ds ds' → {w : List Token} →
    StmtDerives attachment (.functions ds) w → ∃ w', StmtDerives attachment (.functions ds') w'
  | _, _, .nil, w, h => ⟨w, h⟩
  | _, _, .cons hd hrest, _, h => by
    cases h with
    | functionsMore hfirst hmore =>
      obtain ⟨w₁, hfirst'⟩ := hd.serves hbase hfirst
      obtain ⟨w₂, hmore'⟩ := hrest.serves hbase hmore
      exact ⟨_, .functionsMore hfirst' hmore'⟩

end

end

namespace Grammar

/-! ### The long form is derived -/

variable {attachment : Attachment} {ending : Ending} {s s' : Stmt} {w : List Token}

theorem derives_steps {increment : Option Expr} (h : OptionalExpr increment w) {rest : List Stmt}
    {w' : List Token} (hrest : StmtDerives attachment (.declarations rest) w') :
    ∃ w'', StmtDerives attachment (.declarations (Stmt.steps increment ++ rest)) w'' := by
  cases h with
  | absent => exact ⟨w', hrest⟩
  | present he =>
    have hstep : ExprStmt (.expression _) (w ++ [token .semicolon]) := .mk he rfl
    exact ⟨_, .declarationsMore (.plain (.exprStmt hstep)) hrest⟩

theorem serves_of_steps {increment : Option Expr} (h : OptionalExpr increment w) (s s' : Stmt)
    (hs : Steps increment s s') : Serves attachment s s' := by
  cases hs
  refine .of_statement rfl ?_
  intro ending w' hstatement
  obtain ⟨w₁, hsteps⟩ :=
    derives_steps h (.declarationsMore (.plain hstatement) .declarationsEnd)
  obtain ⟨w₂, hblock⟩ := derives_block hsteps
  exact ⟨.closed, w₂, fun _ => rfl, hblock⟩

/-- The loop of the long form. -/
theorem derives_whileLoop {condition : Expr} {increment : Option Expr} {body : Stmt}
    (h : StmtDerives attachment (.statement ending (.loop condition body increment)) w) :
    ∃ w', StmtDerives attachment (.statement .closed
      (.loop condition (.block (body.stepping increment :: Stmt.steps increment)) none)) w' := by
  obtain ⟨⟨given, w₁, hgiven, rfl⟩, ⟨w₂, hincrement⟩, w₃, hbody⟩ := h.parts
  obtain ⟨inner, w₃', -, hstepping⟩ :=
    ((body.replaced_stepping increment).serves (serves_of_steps hincrement)).1 _ _ hbody
  obtain ⟨w₄, hsteps⟩ := derives_steps hincrement .declarationsEnd
  rw [List.append_nil] at hsteps
  obtain ⟨w₅, hblock⟩ := derives_block (.declarationsMore (.plain hstepping) hsteps)
  exact derives_loop hgiven .absent hblock

theorem Unrolls.declared?_eq_none (h : Unrolls s s') : s.declared? = none := by
  cases h with
  | @mk initializer => cases initializer <;> rfl

/-- The long form can stand where the loop does. -/
theorem Unrolls.serves (s s' : Stmt) (h : Unrolls s s') : Serves attachment s s' := by
  refine .of_statement h.declared?_eq_none ?_
  intro ending w hstatement
  cases h with
  | @mk initializer condition increment body =>
    cases initializer with
    | none =>
      obtain ⟨w₁, hloop⟩ := derives_whileLoop hstatement
      obtain ⟨w₂, hblock⟩ := derives_block (.declarationsMore (.plain hloop) .declarationsEnd)
      exact ⟨.closed, w₂, fun _ => rfl, hblock⟩
    | some first =>
      obtain ⟨w₁, hparts⟩ := hstatement.parts
      cases hparts with
      | declarationsMore hfirst hmore =>
        cases hmore with
        | declarationsMore hlast _ =>
          obtain ⟨inner, hlast⟩ := hlast.statement rfl
          obtain ⟨w₂, hloop⟩ := derives_whileLoop hlast
          obtain ⟨w₃, hblock⟩ := derives_block
            (.declarationsMore hfirst (.declarationsMore (.plain hloop) .declarationsEnd))
          exact ⟨.closed, w₃, fun _ => rfl, hblock⟩

end Grammar

end Lox
