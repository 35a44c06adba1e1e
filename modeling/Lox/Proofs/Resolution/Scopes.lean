import Lox.Proofs.Resolution.Walk
import Lox.Proofs.Tree.Shape

/-!
# The scopes during a walk

Between two statements every name in every scope can be read, and each class body
that is open has put a scope with `this` on the stack, around it one with `super`
if the class has a superclass.  A statement only adds the name that it declares.
-/

namespace Lox

/-- Binding a name twice is binding it once. -/
theorem Bindings.insert_insert {α : Type} (bindings : Bindings α) (name : String) (a b : α) :
    (bindings.insert name a).insert name b = bindings.insert name b := by
  unfold Bindings.insert
  congr 1
  induction bindings.entries with
  | nil => simp [Bindings.insertEntry]
  | cons entry rest ih =>
    obtain ⟨key, c⟩ := entry
    by_cases hkey : name = key
    · simp [Bindings.insertEntry, hkey]
    · simp [Bindings.insertEntry, hkey, ih]

namespace Resolution

variable {r r' : Resolution} {scope : Scope} {scopes outer : List Scope}

/-! ### Class scopes -/

def thisScope : Scope := Bindings.empty.insert "this" true

/-- The scope around that of `this`, in a class with a superclass. -/
def superScope : Scope := Bindings.empty.insert "super" true

def Ordinary (scope : Scope) : Prop := ∀ name, ¬ IsName name → scope.find? name = none

/-- The scopes that are open at a point, and the kind of the class around it. -/
inductive Stack : List Scope → EnclosingClass → Prop where
  | top : Stack [] .outside
  | inner {scope : Scope} {outer : List Scope} {c : EnclosingClass} :
      Ordinary scope → Stack outer c → Stack (scope :: outer) c
  | base {outer : List Scope} {c : EnclosingClass} :
      Stack outer c → Stack (thisScope :: outer) .base
  | derived {outer : List Scope} {c : EnclosingClass} :
      Stack outer c → Stack (thisScope :: superScope :: outer) .derived

theorem not_isName_this : ¬ IsName "this" := fun h => h.1 rfl

theorem not_isName_super : ¬ IsName "super" := fun h => h.2 rfl

/-- A name of a scope is found there if no scope further inside has it. -/
theorem distance?_cons (scope : Scope) (outer : List Scope) (name : String) :
    distance? (scope :: outer) name =
      if scope.contains name then some 0 else (distance? outer name).map (· + 1) := by
  unfold distance?
  rw [List.findIdx?_cons]

theorem contains_of_find? {b : Bool} {name : String} (h : scope.find? name = some b) :
    scope.contains name = true := by
  simp [Bindings.contains, h]

theorem not_contains_of_find? {name : String} (h : scope.find? name = none) :
    scope.contains name = false := by
  simp [Bindings.contains, h]

/-- Inside a class, `this` is found, and can be read. -/
theorem Stack.distance?_this {c : EnclosingClass} (h : Stack scopes c) (hc : c ≠ .outside) :
    ∃ d scope, distance? scopes "this" = some d ∧ scopes[d]? = some scope ∧
      scope.find? "this" = some true := by
  induction h with
  | top => exact absurd rfl hc
  | inner hnames _ ih =>
    obtain ⟨d, scope, hdistance, hscope, hthis⟩ := ih hc
    refine ⟨d + 1, scope, ?_, hscope, hthis⟩
    rw [distance?_cons, not_contains_of_find? (hnames _ not_isName_this), hdistance]
    rfl
  | base => exact ⟨0, thisScope, rfl, rfl, rfl⟩
  | derived => exact ⟨0, thisScope, rfl, rfl, rfl⟩

/-- Inside a class with a superclass, `super` is found directly around `this`. -/
theorem Stack.distance?_super {c : EnclosingClass} (h : Stack scopes c) (hc : c = .derived) :
    ∃ d inner around, distance? scopes "super" = some (d + 1) ∧ scopes[d]? = some inner ∧
      inner.find? "this" = some true ∧ scopes[d + 1]? = some around ∧
      around.find? "super" = some true := by
  induction h with
  | top => cases hc
  | inner hnames _ ih =>
    obtain ⟨d, inner, around, hdistance, hinner, hthis, haround, hsuper⟩ := ih hc
    refine ⟨d + 1, inner, around, ?_, hinner, hthis, haround, hsuper⟩
    rw [distance?_cons, not_contains_of_find? (hnames _ not_isName_super), hdistance]
    rfl
  | base => cases hc
  | derived => exact ⟨0, thisScope, superScope, rfl, rfl, rfl, rfl, rfl⟩

/-! ### Names that can be read -/

/-- Where an expression can stand: only in the innermost scope can a name be unreadable. -/
structure Standing (r : Resolution) : Prop where
  stack : Stack r.scopes r.enclosingClass
  readable : ∀ scope ∈ r.scopes.tail, ∀ name, scope.find? name ≠ some false

/-- Where a method can stand: every name can be read. -/
structure Settled (r : Resolution) : Prop where
  stack : Stack r.scopes r.enclosingClass
  readable : ∀ scope ∈ r.scopes, ∀ name, scope.find? name ≠ some false

/-- Where a statement can stand: the innermost scope, if there is one, is no class scope. -/
structure Ready (r : Resolution) : Prop extends Settled r where
  ordinary : ∀ scope ∈ r.scopes.head?, Ordinary scope

theorem Settled.standing (h : Settled r) : Standing r :=
  ⟨h.stack, fun scope hscope => h.readable scope (List.mem_of_mem_tail hscope)⟩

theorem ready_initial : Ready {} :=
  ⟨⟨.top, fun _ h => absurd h List.not_mem_nil⟩, fun _ h => by cases h⟩

theorem Settled.of_sameScopes (h : Settled r) (hsame : SameScopes r r') : Settled r' := by
  constructor
  · rw [hsame.scopes, hsame.enclosingClass]
    exact h.stack
  · rw [hsame.scopes]
    exact h.readable

theorem Ready.of_sameScopes (h : Ready r) (hsame : SameScopes r r') : Ready r' := by
  refine ⟨h.toSettled.of_sameScopes hsame, ?_⟩
  rw [hsame.scopes]
  exact h.ordinary

theorem Standing.of_sameScopes (h : Standing r) (hsame : SameScopes r r') : Standing r' := by
  constructor
  · rw [hsame.scopes, hsame.enclosingClass]
    exact h.stack
  · rw [hsame.scopes]
    exact h.readable

theorem find?_isSome_of_distance? {scopes : List Scope} {name : String} {d : Nat}
    (h : distance? scopes name = some d) :
    ∃ scope readable, scopes[d]? = some scope ∧ scope.find? name = some readable := by
  obtain ⟨hlt, hcontains, -⟩ := List.findIdx?_eq_some_iff_getElem.mp h
  obtain ⟨readable, hfound⟩ := Option.isSome_iff_exists.mp hcontains
  exact ⟨scopes[d], readable, List.getElem?_eq_getElem hlt, hfound⟩

/-- A name that is found outside of the innermost scope can be read. -/
theorem find?_of_distance?_succ {scopes : List Scope} {name : String} {d : Nat}
    (h : ∀ scope ∈ scopes.tail, ∀ name, scope.find? name ≠ some false)
    (hdistance : distance? scopes name = some (d + 1)) :
    ∃ scope, scopes[d + 1]? = some scope ∧ scope.find? name = some true := by
  obtain ⟨scope, readable, hscope, hfound⟩ := find?_isSome_of_distance? hdistance
  refine ⟨scope, hscope, ?_⟩
  cases readable with
  | true => exact hfound
  | false =>
    rw [← List.getElem?_tail] at hscope
    exact absurd hfound (h scope (List.mem_of_getElem? hscope) name)

/-- A name that is found and read without fault can be read. -/
theorem find?_of_distance? (h : ∀ scope ∈ r.scopes.tail, ∀ name, scope.find? name ≠ some false)
    {name : String} (hfault : r.readFault? name = none) {d : Nat}
    (hdistance : distance? r.scopes name = some d) :
    ∃ scope, r.scopes[d]? = some scope ∧ scope.find? name = some true := by
  cases d with
  | succ d => exact find?_of_distance?_succ h hdistance
  | zero =>
    obtain ⟨scope, readable, hscope, hfound⟩ := find?_isSome_of_distance? hdistance
    refine ⟨scope, hscope, ?_⟩
    cases readable with
    | true => exact hfound
    | false =>
      unfold readFault? at hfault
      cases hscopes : r.scopes with
      | nil => simp [hscopes] at hscope
      | cons first outer =>
        rw [hscopes, List.getElem?_cons_zero, Option.some.injEq] at hscope
        simp [hscopes, hscope, hfound] at hfault

/-! ### Declaring names -/

theorem scopes_mark (name : String) (readable : Bool) (r : Resolution) :
    (r.mark name readable).scopes =
      match r.scopes with
      | [] => []
      | scope :: outer => scope.insert name readable :: outer := by
  unfold mark
  cases hscopes : r.scopes with
  | nil => simp [hscopes]
  | cons scope outer => rfl

theorem enclosingClass_mark (name : String) (readable : Bool) (r : Resolution) :
    (r.mark name readable).enclosingClass = r.enclosingClass :=
  (sameOuter_mark name readable r).enclosingClass

theorem scopes_declare (token : Token) (r : Resolution) :
    (r.declare token).scopes = (r.mark token.lexeme false).scopes :=
  (sameScopes_reportIf _ _ _ _).scopes

/-- A name that was declared and is then defined is just readable. -/
theorem scopes_define_declare {token : Token} (h : SameScopes (r.declare token) r') :
    (r'.define token).scopes = (r.mark token.lexeme true).scopes := by
  unfold define
  rw [scopes_mark, h.scopes, scopes_declare, scopes_mark, scopes_mark]
  cases r.scopes with
  | nil => rfl
  | cons scope outer => simp only [Bindings.insert_insert]

theorem Ordinary.insert (h : Ordinary scope) {name : String} (hname : IsName name)
    (readable : Bool) : Ordinary (scope.insert name readable) := by
  intro other hother
  rw [Bindings.find?_insert, if_neg, h other hother]
  intro heq
  exact hother (heq ▸ hname)

/-- Below an ordinary scope the stack goes on in the same class. -/
theorem Stack.tail {c : EnclosingClass} (h : Stack (scope :: outer) c) (hscope : Ordinary scope) :
    Stack outer c := by
  cases h with
  | inner _ houter => exact houter
  | base => exact absurd (hscope "this" not_isName_this) (by decide)
  | derived => exact absurd (hscope "this" not_isName_this) (by decide)

theorem Ready.mark (h : Ready r) {name : String} (hname : IsName name) :
    Ready (r.mark name true) := by
  have hstack := h.stack
  have hreadable := h.readable
  have hordinary := h.ordinary
  rw [← enclosingClass_mark name true r] at hstack
  -- At the top level no scope is marked.
  cases hscopes : r.scopes with
  | nil =>
    rw [hscopes] at hstack
    refine ⟨⟨?_, ?_⟩, ?_⟩
    · rw [scopes_mark, hscopes]
      exact hstack
    · rw [scopes_mark, hscopes]
      exact fun _ hscope => absurd hscope List.not_mem_nil
    · rw [scopes_mark, hscopes]
      exact fun _ hscope => by cases hscope
  -- The innermost scope gets the name, and the others stay.
  | cons scope outer =>
    rw [hscopes] at hstack hreadable hordinary
    have hscope : Ordinary (scope.insert name true) := (hordinary scope rfl).insert hname true
    refine ⟨⟨?_, ?_⟩, ?_⟩
    · rw [scopes_mark, hscopes]
      exact .inner hscope (hstack.tail (hordinary scope rfl))
    · rw [scopes_mark, hscopes]
      intro s hs other
      rcases List.mem_cons.mp hs with rfl | hs
      · rw [Bindings.find?_insert]
        split
        · simp
        · exact hreadable scope List.mem_cons_self other
      · exact hreadable s (List.mem_cons_of_mem _ hs) other
    · rw [scopes_mark, hscopes]
      intro s hs
      cases hs
      exact hscope

/-- While a name is being declared, expressions can still stand. -/
theorem Ready.declare (h : Ready r) {token : Token} (hname : IsName token.lexeme) :
    Standing (r.declare token) := by
  have hstack := h.stack
  have hreadable := h.readable
  have hordinary := h.ordinary
  rw [← (sameOuter_declare token r).enclosingClass] at hstack
  cases hscopes : r.scopes with
  | nil =>
    rw [hscopes] at hstack
    constructor
    · rw [scopes_declare, scopes_mark, hscopes]
      exact hstack
    · rw [scopes_declare, scopes_mark, hscopes]
      exact fun _ hscope => absurd hscope List.not_mem_nil
  | cons scope outer =>
    rw [hscopes] at hstack hreadable hordinary
    constructor
    · rw [scopes_declare, scopes_mark, hscopes]
      exact .inner ((hordinary scope rfl).insert hname false) (hstack.tail (hordinary scope rfl))
    · rw [scopes_declare, scopes_mark, hscopes]
      exact fun s hs => hreadable s (List.mem_cons_of_mem _ hs)

/-! ### Entering the parts of statements -/

theorem ordinary_empty : Ordinary .empty := fun _ _ => rfl

theorem Settled.openScope (h : Settled r) : Ready r.openScope := by
  refine ⟨⟨.inner ordinary_empty h.stack, ?_⟩, ?_⟩
  · intro scope hscope name
    rcases List.mem_cons.mp hscope with rfl | hscope
    · exact nofun
    · exact h.readable scope hscope name
  · intro scope hscope
    cases hscope
    exact ordinary_empty

theorem Standing.enterInitializer (h : Standing r) (name : String) :
    Standing (r.enterInitializer name) := by
  unfold Resolution.enterInitializer
  split
  · exact ⟨h.stack, h.readable⟩
  · exact h

theorem Ready.enterLoop (h : Ready r) : Ready r.enterLoop := ⟨⟨h.stack, h.readable⟩, h.ordinary⟩

theorem Ready.declareParameters (h : Ready r) {parameters : List Token}
    (hnames : ∀ t ∈ parameters, IsName t.lexeme) : Ready (r.declareParameters parameters) := by
  induction parameters generalizing r with
  | nil => exact h
  | cons parameter parameters ih =>
    refine ih ?_ fun t ht => hnames t (List.mem_cons_of_mem _ ht)
    have hmark := h.mark (hnames parameter List.mem_cons_self)
    have hscopes := scopes_define_declare (SameScopes.refl (r.declare parameter))
    have hclass : ((r.declare parameter).define parameter).enclosingClass =
        (r.mark parameter.lexeme true).enclosingClass := by
      rw [((sameOuter_declare parameter r).trans (sameOuter_define parameter _)).enclosingClass,
        enclosingClass_mark]
    refine ⟨⟨?_, ?_⟩, ?_⟩
    · rw [hscopes, hclass]
      exact hmark.stack
    · rw [hscopes]
      exact hmark.readable
    · rw [hscopes]
      exact hmark.ordinary

theorem Settled.enterRoutine (h : Settled r) (routine : EnclosingRoutine)
    {parameters : List Token} (hnames : ∀ t ∈ parameters, IsName t.lexeme) :
    Ready (r.enterRoutine routine parameters) := by
  have hentered : Settled { r with routine := routine, loopDepth := 0 } := ⟨h.stack, h.readable⟩
  exact hentered.openScope.declareParameters hnames

theorem scopes_enterInitializer (name : String) (r : Resolution) :
    (r.enterInitializer name).scopes = r.scopes := by
  unfold enterInitializer
  split <;> rfl

theorem scopes_enterSuperclass (name : Token) (parent : Occurrence) (r : Resolution) :
    (r.enterSuperclass name parent).scopes = (r.mark name.lexeme true).scopes := by
  have hmark := scopes_define_declare
    (SameScopes.refl (({ r with enclosingClass := .base } : Resolution).declare name))
  rw [scopes_mark] at hmark ⊢
  exact (sameScopes_reportIf (parent.name = name.lexeme) .inheritsFromItself parent.token
    _).scopes.trans hmark

theorem scopes_enterClass (name : Token) (superclass : Option Occurrence) (r : Resolution) :
    (r.enterClass name superclass).scopes = (r.mark name.lexeme true).scopes := by
  cases superclass with
  | none =>
    have hmark := scopes_define_declare
      (SameScopes.refl (({ r with enclosingClass := .base } : Resolution).declare name))
    rw [scopes_mark] at hmark ⊢
    exact hmark
  | some parent =>
    exact (sameScopes_read parent (r.enterSuperclass name parent)).scopes.trans
      (scopes_enterSuperclass name parent r)

/-- The scopes that the methods of a class see. -/
theorem scopes_enterClassBody (derived : Bool) (r : Resolution) :
    (r.enterClassBody derived).scopes =
      thisScope :: (if derived then superScope :: r.scopes else r.scopes) := by
  cases derived <;> rfl

/-- The kind of class that methods stand in. -/
theorem enclosingClass_enterClassBody (name : Token) (superclass : Option Occurrence)
    (r : Resolution) :
    ((r.enterClass name superclass).enterClassBody superclass.isSome).enclosingClass =
      if superclass.isSome then .derived else .base := by
  cases superclass with
  | none =>
    have hname := (sameOuter_declare name { r with enclosingClass := .base }).trans
      (sameOuter_define name _)
    exact hname.enclosingClass
  | some parent =>
    exact (sameScopes_read parent (r.enterSuperclass name parent)).enclosingClass

theorem Ready.enterClassBody (h : Ready r) {name : Token} (hname : IsName name.lexeme)
    (superclass : Option Occurrence) :
    Settled ((r.enterClass name superclass).enterClassBody superclass.isSome) := by
  have hmark := h.mark hname
  have hclass := enclosingClass_enterClassBody name superclass r
  have hthis : ∀ n, thisScope.find? n ≠ some false := by
    intro n
    simp only [thisScope, Bindings.find?_insert]
    split
    · simp
    · exact nofun
  have hsuper : ∀ n, superScope.find? n ≠ some false := by
    intro n
    simp only [superScope, Bindings.find?_insert]
    split
    · simp
    · exact nofun
  constructor
  · rw [hclass, scopes_enterClassBody, scopes_enterClass]
    cases superclass with
    | none => exact .base hmark.stack
    | some parent => exact .derived hmark.stack
  · rw [scopes_enterClassBody, scopes_enterClass]
    intro scope hscope n
    rcases List.mem_cons.mp hscope with rfl | hscope
    · exact hthis n
    · cases superclass with
      | none => exact hmark.readable scope hscope n
      | some parent =>
        rcases List.mem_cons.mp hscope with rfl | hscope
        · exact hsuper n
        · exact hmark.readable scope hscope n

end Resolution

open Resolution

/-! ### Behind a statement -/

theorem FunctionDecl.scopes_resolve (routine : EnclosingRoutine) (d : FunctionDecl)
    (r : Resolution) : (d.resolve routine r).scopes = r.scopes := by
  cases d with
  | mk name parameters body =>
    exact scopes_inRoutine fun r =>
      (sameOuter_declareParameters parameters r).trans (Stmt.sameOuter_resolveEach body _)

theorem FunctionDecl.settled_resolve {r : Resolution} (h : Settled r) (routine : EnclosingRoutine)
    (d : FunctionDecl) : Settled (d.resolve routine r) := by
  constructor
  · rw [d.scopes_resolve, (d.sameOuter_resolve routine r).enclosingClass]
    exact h.stack
  · rw [d.scopes_resolve]
    exact h.readable

def Resolution.behind (names : List String) (r : Resolution) : Resolution :=
  names.foldl (fun r name => r.mark name true) r

theorem Resolution.behind_append (first second : List String) (r : Resolution) :
    r.behind (first ++ second) = (r.behind first).behind second :=
  List.foldl_append

theorem Resolution.scopes_behind_congr (names : List String) {r r' : Resolution}
    (h : r.scopes = r'.scopes) : (r.behind names).scopes = (r'.behind names).scopes := by
  induction names generalizing r r' with
  | nil => exact h
  | cons name names ih =>
    apply ih
    rw [scopes_mark, scopes_mark, h]

/-- The scopes behind a statement that declares `declared?`. -/
def Resolution.scopesWith (declared? : Option String) (r : Resolution) : List Scope :=
  match declared? with
  | none => r.scopes
  | some name => (r.mark name true).scopes

/-- A statement adds the names it declares to the innermost scope, and nothing else. -/
theorem Stmt.scopes_behind : (s : Stmt) → (r : Resolution) →
    (s.resolve r).scopes = (r.behind s.declares).scopes
  | .expression value, r => (value.sameScopes_resolve r).scopes
  | .var name none, r => scopes_define_declare (SameScopes.refl (r.declare name))
  | .var name (some value), r => by
    -- An initializer is walked in the same scopes, marked or not.
    have hscopes : ((r.declare name).inInitializer name.lexeme value.resolve).scopes =
        (r.declare name).scopes := by
      unfold inInitializer
      split
      · exact (value.sameScopes_resolve _).scopes
      · exact (value.sameScopes_resolve _).scopes
    have hdefine := scopes_define_declare (SameScopes.refl (r.declare name))
    unfold define at hdefine
    rw [scopes_mark] at hdefine
    rw [Stmt.resolve, define, scopes_mark, hscopes]
    exact hdefine
  -- The scope of a block is closed behind it.
  | .block body, r => scopes_inScope (Stmt.sameOuter_resolveEach body r.openScope)
  | .conditional condition thenBranch none, r =>
    (thenBranch.scopes_behind _).trans
      (scopes_behind_congr _ (condition.sameScopes_resolve r).scopes)
  | .conditional condition thenBranch (some elseBranch), r => by
    -- What the branches declare is declared in a row, as by two statements.
    have hthen := (thenBranch.scopes_behind _).trans
      (scopes_behind_congr _ (condition.sameScopes_resolve r).scopes)
    rw [Stmt.declares, behind_append]
    exact (elseBranch.scopes_behind _).trans (scopes_behind_congr _ hthen)
  | .loop condition body increment, r => by
    have hbody := (body.scopes_behind (condition.resolve r).enterLoop).trans
      (scopes_behind_congr _ (condition.sameScopes_resolve r).scopes)
    exact (Expr.sameScopes_resolveIn? ((condition.resolve r).inLoop body.resolve)
      increment).scopes.trans hbody
  -- The name of a function is in scope before its body is walked.
  | .function declaration, r =>
    (declaration.scopes_resolve .function _).trans
      (scopes_define_declare (SameScopes.refl (r.declare declaration.name)))
  | .returning keyword value, r => by
    cases value with
    | none => exact (sameScopes_reportIf _ _ _ r).scopes
    | some value =>
      exact (value.sameScopes_resolve _).scopes.trans
        ((sameScopes_reportIf _ _ _ r).trans (sameScopes_reportIf _ _ _ _)).scopes
  | .breaking _, r => (sameScopes_reportIf _ _ _ r).scopes
  | .continuing _, r => (sameScopes_reportIf _ _ _ r).scopes
  -- A class opens and closes its scopes behind the declaration of its name.
  | .class name superclass methods, r =>
    (scopes_inClassBody fun r => FunctionDecl.sameOuter_resolveMethods methods r).trans
      (scopes_enterClass name superclass r)
termination_by structural s => s

/-- A statement adds the name it declares to the innermost scope, and nothing else. -/
theorem Stmt.scopes_resolve (s : Stmt) (h : s.Shaped) (r : Resolution) :
    (s.resolve r).scopes = r.scopesWith s.declared? := by
  rw [s.scopes_behind, s.declares_of_shaped h]
  cases s.declared? with
  | none => rfl
  | some name => rfl

theorem Stmt.scopes_of_declares_nothing {s : Stmt} (hshaped : s.Shaped)
    (hdeclared : s.declared? = none) (r : Resolution) : (s.resolve r).scopes = r.scopes := by
  have hscopes := s.scopes_resolve hshaped r
  rwa [hdeclared] at hscopes

theorem Stmt.scopes_of_declares {s : Stmt} {name : String} (hshaped : s.Shaped)
    (hdeclared : s.declared? = some name) (r : Resolution) :
    (s.resolve r).scopes = (r.mark name true).scopes := by
  have hscopes := s.scopes_resolve hshaped r
  rwa [hdeclared] at hscopes

theorem Stmt.declared?_isName {s : Stmt} (h : s.Shaped) : ∀ name ∈ s.declared?, IsName name := by
  intro name hname
  cases s with
  | var token initializer =>
    cases hname
    exact h
  | function declaration =>
    cases hname
    exact h.1
  | «class» token superclass methods =>
    cases hname
    exact h.1
  | _ => cases hname

theorem Stmt.ready_resolve {s : Stmt} (hshaped : s.Shaped) {r : Resolution} (h : Ready r) :
    Ready (s.resolve r) := by
  have hscopes := s.scopes_resolve hshaped r
  have hclass := (s.sameOuter_resolve r).enclosingClass
  cases hdeclared : s.declared? with
  | none =>
    rw [hdeclared, scopesWith] at hscopes
    refine ⟨⟨?_, ?_⟩, ?_⟩
    · rw [hscopes, hclass]
      exact h.stack
    · rw [hscopes]
      exact h.readable
    · rw [hscopes]
      exact h.ordinary
  | some name =>
    have hmark := h.mark (s.declared?_isName hshaped name hdeclared)
    rw [hdeclared, scopesWith] at hscopes
    rw [← enclosingClass_mark name true r] at hclass
    refine ⟨⟨?_, ?_⟩, ?_⟩
    · rw [hscopes, hclass]
      exact hmark.stack
    · rw [hscopes]
      exact hmark.readable
    · rw [hscopes]
      exact hmark.ordinary

end Lox
