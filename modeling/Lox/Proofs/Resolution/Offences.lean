import Lox.Proofs.Resolution.Scopes

/-!
# The programs that resolution rejects

Whether a part of a program offends against the rules of scoping depends on what it
stands in: the loops, routines, classes and blocks around it, the names that its scope
declares in front of it, and the variable whose initializer it belongs to.  Here this is
read off the tree, without a state that changes on the way.  The errors of resolution
are the offences of the program, each of them once and in the order of the walk.
-/

namespace Lox

open Resolution

/-! ### Surroundings -/

/-- What a part of a program can stand in. -/
inductive Construct where
  | block
  | loop
  | routine (isInitializer : Bool)
  | class (isDerived : Bool)
  deriving DecidableEq

namespace Construct

def routine? : Construct → Option Bool
  | routine isInitializer => some isInitializer
  | _ => none

def class? : Construct → Option Bool
  | .class isDerived => some isDerived
  | _ => none

/-- Whether names that are declared directly in the construct are local to it. -/
def hasScope : Construct → Bool
  | loop => false
  | _ => true

end Construct

/-- Where a part of a program stands. -/
structure Around where
  /-- The constructs around it, from the inside out. -/
  constructs : List Construct := []
  /-- The names that are declared in the same scope in front of it. -/
  declared : List String := []
  /-- The variable whose initializer it belongs to. -/
  initializing? : Option String := none

namespace Around

variable (a : Around)

/-- Directly within one more construct, where nothing is declared yet. -/
def within (construct : Construct) : Around := { constructs := construct :: a.constructs }

/-- Within the body of a loop, which has no scope of its own. -/
def withinLoop : Around := { a with constructs := .loop :: a.constructs }

/-- Behind declarations of these names. -/
def behind (names : List String) : Around := { a with declared := a.declared ++ names }

@[simp]
theorem behind_nil : a.behind [] = a := by simp [behind]

@[simp]
theorem behind_behind (first second : List String) :
    (a.behind first).behind second = a.behind (first ++ second) := by simp [behind]

def initializing (name : Token) : Around := { a with initializing? := some name.lexeme }

/-- A loop is around it, and no routine in between. -/
def InLoop : Prop := .loop ∈ a.constructs.takeWhile fun c => c.routine?.isNone

instance : Decidable a.InLoop := inferInstanceAs (Decidable (_ ∈ _))

/-- For the innermost routine around it, whether that is an initializer. -/
def routine? : Option Bool := a.constructs.findSome? Construct.routine?

@[simp]
theorem routine?_within (isInitializer : Bool) :
    (a.within (.routine isInitializer)).routine? = some isInitializer := rfl

/-- For the innermost class around it, whether that has a superclass. -/
def class? : Option Bool := a.constructs.findSome? Construct.class?

def isLocal : Bool := a.constructs.any Construct.hasScope

@[simp]
theorem initializing?_initializing (name : Token) :
    (a.initializing name).initializing? = some name.lexeme := rfl

@[simp]
theorem isLocal_initializing (name : Token) : (a.initializing name).isLocal = a.isLocal := rfl

end Around

/-! ### Offences -/

/-- The parts of a program that the rules of scoping are about. -/
inductive Site where
  | declaration (name : Token)
  | read (place : Occurrence)
  | this (place : Occurrence)
  | super (place : Occurrence)
  | superclass (name : Token) (parent : Occurrence)
  | returning (keyword : Token) (hasValue : Bool)
  | breaking (keyword : Token)
  | continuing (keyword : Token)

namespace Site

def token : Site → Token
  | declaration name => name
  | read place | this place | super place | superclass _ place => place.token
  | returning keyword _ | breaking keyword | continuing keyword => keyword

/-- The rule that a site offends against where it stands. -/
def cause? (a : Around) : Site → Option ScopeCause
  | declaration name =>
    if a.isLocal ∧ name.lexeme ∈ a.declared then some .alreadyDeclared else none
  | read place =>
    if a.initializing? = some place.name then
      some (if a.isLocal then .localReadInInitializer else .globalReadInInitializer)
    else none
  | this _ => if a.class? = none then some .thisOutsideClass else none
  | super _ =>
    match a.class? with
    | none => some .superOutsideClass
    | some false => some .superWithoutSuperclass
    | some true => none
  | superclass name parent =>
    if parent.name = name.lexeme then some .inheritsFromItself else none
  | returning _ hasValue =>
    match a.routine? with
    | none => some .returnAtTopLevel
    | some isInitializer =>
      if isInitializer ∧ hasValue then some .returnValueFromInitializer else none
  | breaking _ => if a.InLoop then none else some .breakOutsideLoop
  | continuing _ => if a.InLoop then none else some .continueOutsideLoop

end Site

structure Spot where
  around : Around
  site : Site

def Spot.offence? (spot : Spot) : Option ScopeError :=
  (spot.site.cause? spot.around).map fun cause => ⟨cause, spot.site.token⟩

/-! ### The sites of a program -/

mutual

/-- The sites of an expression.  Values come before the objects whose fields they become. -/
def Expr.sites : Expr → List Site
  | .literal _ => []
  | .unary _ operand => operand.sites
  | .binary left _ right | .logical left _ right => left.sites ++ right.sites
  | .group inner => inner.sites
  | .read place => [.read place]
  | .assign _ value => value.sites
  | .call callee _ arguments => callee.sites ++ Expr.sitesEach arguments
  | .get object _ => object.sites
  | .set object _ value => value.sites ++ object.sites
  | .this place => [.this place]
  | .super place _ => [.super place]
termination_by structural e => e

def Expr.sitesEach : List Expr → List Site
  | [] => []
  | e :: rest => e.sites ++ Expr.sitesEach rest
termination_by structural es => es

end

def Expr.spots (a : Around) (e : Expr) : List Spot := e.sites.map fun site => ⟨a, site⟩

def Expr.spotsIn? (a : Around) : Option Expr → List Spot
  | none => []
  | some e => e.spots a

def Token.spots (a : Around) : List Token → List Spot
  | [] => []
  | parameter :: rest =>
    ⟨a, .declaration parameter⟩ :: Token.spots (a.behind [parameter.lexeme]) rest

mutual

def Stmt.spots : Stmt → Around → List Spot
  | .expression value, a => value.spots a
  | .var name none, a => [⟨a, .declaration name⟩]
  | .var name (some value), a => ⟨a, .declaration name⟩ :: value.spots (a.initializing name)
  | .block body, a => Stmt.spotsEach body (a.within .block)
  | .conditional condition thenBranch none, a => condition.spots a ++ thenBranch.spots a
  | .conditional condition thenBranch (some elseBranch), a =>
    condition.spots a ++ thenBranch.spots a ++ elseBranch.spots (a.behind thenBranch.declares)
  | .loop condition body increment, a =>
    condition.spots a ++ body.spots a.withinLoop ++
      Expr.spotsIn? (a.behind body.declares) increment
  | .function declaration, a =>
    ⟨a, .declaration declaration.name⟩ :: declaration.spots (a.within (.routine false))
  | .returning keyword value, a =>
    ⟨a, .returning keyword value.isSome⟩ :: Expr.spotsIn? a value
  | .breaking keyword, a => [⟨a, .breaking keyword⟩]
  | .continuing keyword, a => [⟨a, .continuing keyword⟩]
  | .class name none methods, a =>
    ⟨a, .declaration name⟩ :: FunctionDecl.spotsEach methods (a.within (.class false))
  | .class name (some parent) methods, a =>
    ⟨a, .declaration name⟩ :: ⟨a, .superclass name parent⟩ ::
      FunctionDecl.spotsEach methods (a.within (.class true))
termination_by structural s => s

/-- The spots of statements, each of which stands behind those in front of it. -/
def Stmt.spotsEach : List Stmt → Around → List Spot
  | [], _ => []
  | s :: rest, a => s.spots a ++ Stmt.spotsEach rest (a.behind s.declares)
termination_by structural ss => ss

/-- The spots of a function, whose parameters and body share a scope. -/
def FunctionDecl.spots : FunctionDecl → Around → List Spot
  | ⟨_, parameters, body⟩, a =>
    Token.spots a parameters ++ Stmt.spotsEach body (a.behind (parameters.map Token.lexeme))
termination_by structural d => d

def FunctionDecl.spotsEach : List FunctionDecl → Around → List Spot
  | [], _ => []
  | d :: rest, a =>
    d.spots (a.within (.routine d.isInitializer)) ++ FunctionDecl.spotsEach rest a
termination_by structural ds => ds

end

/-- Everything that is wrong with the scoping of a program. -/
def Stmt.offences (program : List Stmt) : List ScopeError :=
  (Stmt.spotsEach program {}).filterMap Spot.offence?

/-! ### The state stands for the surroundings -/

/-- What the state of the walk knows of the constructs around. -/
structure Surrounds (a : Around) (r : Resolution) : Prop where
  topLevel : r.routine = .topLevel ↔ a.routine? = none
  initializer : r.routine = .initializer ↔ a.routine? = some true
  enclosingClass : r.enclosingClass =
    match a.class? with
    | none => .outside
    | some false => .base
    | some true => .derived
  loop : r.loopDepth = 0 ↔ ¬ a.InLoop
  isLocal : r.scopes = [] ↔ a.isLocal = false

/-- The innermost scope declares these names, and all of them can be read. -/
def Declares (names : List String) (r : Resolution) : Prop :=
  ∀ scope ∈ r.scopes.head?, ∀ name,
    (scope.contains name = true ↔ name ∈ names) ∧ scope.find? name ≠ some false

structure StandsIn (a : Around) (r : Resolution) : Prop where
  surrounds : Surrounds a r
  reads : ∀ place, r.readFault? place.name = (Site.read place).cause? a

structure StandsAt (a : Around) (r : Resolution) : Prop where
  surrounds : Surrounds a r
  declares : Declares a.declared r
  free : a.initializing? = none
  notInitializing : r.initializing? = none

variable {a a' : Around} {r r' r'' : Resolution} {names : List String}

theorem Surrounds.of_sameOuter (h : Surrounds a r) (hsame : SameOuter r r') : Surrounds a r' := by
  constructor
  · rw [hsame.routine]
    exact h.topLevel
  · rw [hsame.routine]
    exact h.initializer
  · rw [hsame.enclosingClass]
    exact h.enclosingClass
  · rw [hsame.loopDepth]
    exact h.loop
  · rw [← List.length_eq_zero_iff, hsame.length, List.length_eq_zero_iff]
    exact h.isLocal

theorem Surrounds.of_constructs (h : Surrounds a r) (hconstructs : a'.constructs = a.constructs) :
    Surrounds a' r := by
  obtain ⟨htop, hinit, hclass, hloop, hlocal⟩ := h
  refine ⟨?_, ?_, ?_, ?_, ?_⟩
  · simpa only [Around.routine?, hconstructs] using htop
  · simpa only [Around.routine?, hconstructs] using hinit
  · simpa only [Around.class?, hconstructs] using hclass
  · simpa only [Around.InLoop, hconstructs] using hloop
  · simpa only [Around.isLocal, hconstructs] using hlocal

theorem Surrounds.isLocal_of_cons (h : Surrounds a r) {scope : Scope} {outer : List Scope}
    (hscopes : r.scopes = scope :: outer) : a.isLocal = true := by
  rw [← Bool.not_eq_false, ← h.isLocal, hscopes]
  exact nofun

theorem Declares.of_scopes (h : Declares names r) (hscopes : r'.scopes = r.scopes) :
    Declares names r' := by
  rw [Declares, hscopes]
  exact h

/-- A scope that was just opened declares nothing. -/
theorem declares_openScope (r : Resolution) : Declares [] r.openScope := by
  intro scope hscope name
  cases hscope
  exact ⟨by simp [Bindings.contains, Bindings.find?, Bindings.empty, Bindings.findEntry], nofun⟩

theorem Declares.mark (h : Declares names r) (name : String) :
    Declares (names ++ [name]) (r.mark name true) := by
  intro scope hscope other
  cases hscopes : r.scopes with
  | nil =>
    simp only [Resolution.mark, hscopes, List.head?_nil] at hscope
    cases hscope
  | cons inner outer =>
    simp only [Resolution.mark, hscopes, List.head?_cons] at hscope
    cases hscope
    obtain ⟨hcontains, hreadable⟩ := h inner (by rw [hscopes]; rfl) other
    simp only [Bindings.contains, Bindings.find?_insert, List.mem_append, List.mem_singleton]
    by_cases hother : other = name
    · simp [hother]
    · simpa [hother, Bindings.contains] using ⟨hcontains, hreadable⟩

theorem Declares.behind (h : Declares names r) (more : List String) :
    Declares (names ++ more) (r.behind more) := by
  induction more generalizing names r with
  | nil => simpa [Resolution.behind] using h
  | cons name more ih =>
    have hnext := ih (h.mark name)
    rw [List.append_assoc] at hnext
    exact hnext

/-! ### The errors of a walk -/

/-- A part of the walk that reports what is wrong at these spots, and nothing else. -/
def Reports (r r' : Resolution) (spots : List Spot) : Prop :=
  r'.errors = r.errors ++ spots.filterMap Spot.offence?

variable {spots spots' : List Spot}

theorem reports_of_eq (h : r'.errors = r.errors) : Reports r r' [] := by
  rw [Reports, h]
  exact (List.append_nil _).symm

theorem Reports.trans (h : Reports r r' spots) (h' : Reports r' r'' spots') :
    Reports r r'' (spots ++ spots') := by
  rw [Reports, h', h, List.filterMap_append, List.append_assoc]

theorem reports_reportIf (site : Site) {condition : Bool} {cause : ScopeCause}
    (h : site.cause? a = if condition then some cause else none) (r : Resolution) :
    Reports r (r.reportIf condition cause site.token) [⟨a, site⟩] := by
  cases condition with
  | true => simp [Reports, reportIf, report, Spot.offence?, h]
  | false => simp [Reports, reportIf, Spot.offence?, h]

theorem reports_mark (name : String) (readable : Bool) (r : Resolution) :
    Reports r (r.mark name readable) [] := by
  apply reports_of_eq
  unfold mark
  split <;> rfl

theorem reports_locate (place : Occurrence) (r : Resolution) :
    Reports r (r.locate place) [] := by
  apply reports_of_eq
  unfold locate
  split <;> rfl

theorem reports_define (token : Token) (r : Resolution) : Reports r (r.define token) [] :=
  reports_mark token.lexeme true r

/-- A scope knows whether it declares a name already, and the top level does not mind. -/
theorem Surrounds.cause?_declaration (h : Surrounds a r) (hdeclares : Declares a.declared r)
    (name : Token) :
    (Site.declaration name).cause? a =
      if r.declaresInnermost name.lexeme then some .alreadyDeclared else none := by
  unfold declaresInnermost
  cases hscopes : r.scopes with
  | nil =>
    have hglobal := h.isLocal.mp hscopes
    simp [Site.cause?, hglobal]
  | cons scope outer =>
    have hlocal := h.isLocal_of_cons hscopes
    obtain ⟨hcontains, -⟩ := hdeclares scope (by rw [hscopes]; rfl) name.lexeme
    simp [Site.cause?, hlocal, ← hcontains]

theorem Surrounds.reports_declare (h : Surrounds a r) (hdeclares : Declares a.declared r)
    (name : Token) : Reports r (r.declare name) [⟨a, .declaration name⟩] := by
  have hcause := h.cause?_declaration hdeclares name
  exact (reports_mark name.lexeme false r).trans (reports_reportIf _ hcause _)

/-! ### Expressions -/

theorem StandsIn.of_sameScopes (h : StandsIn a r) (hsame : SameScopes r r') : StandsIn a r' := by
  refine ⟨h.surrounds.of_sameOuter hsame.outer, ?_⟩
  intro place
  rw [← h.reads place]
  unfold readFault?
  rw [hsame.scopes, hsame.initializing?]

theorem StandsIn.reports_read (h : StandsIn a r) (place : Occurrence) :
    Reports r (r.read place) [⟨a, .read place⟩] := by
  have hreads := h.reads place
  unfold Resolution.read
  cases hfault : r.readFault? place.name with
  | none =>
    rw [hfault] at hreads
    have hlocate := reports_locate place r
    simpa [Reports, Spot.offence?, ← hreads] using hlocate
  | some cause =>
    rw [hfault] at hreads
    have hlocate := reports_locate place (r.report cause place.token)
    simpa [Reports, Spot.offence?, ← hreads, report, Site.token] using hlocate

theorem StandsIn.reports_this (h : StandsIn a r) (place : Occurrence) :
    Reports r (r.resolveThis place) [⟨a, .this place⟩] := by
  have hclass := h.surrounds.enclosingClass
  have hlocate := reports_locate place r
  unfold resolveThis
  split at hclass
  case h_1 hkind =>
    rw [hclass]
    simp [Reports, Spot.offence?, Site.cause?, Site.token, report, hkind]
  all_goals
    rename_i hkind
    rw [hclass]
    simpa [Reports, Spot.offence?, Site.cause?, hkind] using hlocate

theorem StandsIn.reports_super (h : StandsIn a r) (place : Occurrence) :
    Reports r (r.resolveSuper place) [⟨a, .super place⟩] := by
  have hclass := h.surrounds.enclosingClass
  have hlocate := reports_locate place r
  unfold resolveSuper
  split at hclass
  case h_3 hkind =>
    rw [hclass]
    simpa [Reports, Spot.offence?, Site.cause?, hkind] using hlocate
  all_goals
    rename_i hkind
    rw [hclass]
    simp [Reports, Spot.offence?, Site.cause?, Site.token, report, hkind]

mutual

/-- An expression is resolved with the offences of its spots. -/
theorem Expr.reports_resolve : (e : Expr) → {r : Resolution} → StandsIn a r →
    Reports r (e.resolve r) (e.spots a)
  | .literal _, _, _ => reports_of_eq rfl
  | .unary _ operand, _, h => operand.reports_resolve h
  | .binary left _ right, _, h | .logical left _ right, _, h => by
    rw [Expr.spots, Expr.sites, List.map_append]
    exact (left.reports_resolve h).trans
      (right.reports_resolve (h.of_sameScopes (left.sameScopes_resolve _)))
  | .group inner, _, h => inner.reports_resolve h
  | .read place, _, h => h.reports_read place
  | .assign place value, _, h => by
    have hlocate := (value.reports_resolve h).trans (reports_locate place _)
    rw [List.append_nil] at hlocate
    exact hlocate
  | .call callee _ arguments, _, h => by
    rw [Expr.spots, Expr.sites, List.map_append]
    exact (callee.reports_resolve h).trans
      (Expr.reports_resolveEach arguments (h.of_sameScopes (callee.sameScopes_resolve _)))
  | .get object _, _, h => object.reports_resolve h
  | .set object _ value, _, h => by
    rw [Expr.spots, Expr.sites, List.map_append]
    exact (value.reports_resolve h).trans
      (object.reports_resolve (h.of_sameScopes (value.sameScopes_resolve _)))
  | .this place, _, h => h.reports_this place
  | .super place _, _, h => h.reports_super place
termination_by structural e => e

theorem Expr.reports_resolveEach : (es : List Expr) → {r : Resolution} → StandsIn a r →
    Reports r (Expr.resolveEach es r) ((Expr.sitesEach es).map fun site => ⟨a, site⟩)
  | [], _, _ => reports_of_eq rfl
  | e :: rest, _, h => by
    rw [Expr.sitesEach, List.map_append]
    exact (e.reports_resolve h).trans
      (Expr.reports_resolveEach rest (h.of_sameScopes (e.sameScopes_resolve _)))
termination_by structural es => es

end

theorem Expr.reports_resolveIn? (e : Option Expr) (h : StandsIn a r) :
    Reports r (Expr.resolveIn? e r) (Expr.spotsIn? a e) := by
  cases e with
  | none => exact reports_of_eq rfl
  | some e => exact e.reports_resolve h

/-! ### Entering a part of a statement -/

/-- Between statements all names can be read. -/
theorem Declares.readFault? (h : Declares names r) (hnone : r.initializing? = none)
    (name : String) : r.readFault? name = none := by
  unfold Resolution.readFault?
  cases hscopes : r.scopes with
  | nil => simp [hnone]
  | cons scope outer => simp [(h scope (by rw [hscopes]; rfl) name).2]

theorem StandsAt.standsIn (h : StandsAt a r) : StandsIn a r := by
  refine ⟨h.surrounds, ?_⟩
  intro place
  rw [h.declares.readFault? h.notInitializing]
  simp [Site.cause?, h.free]

/-- Behind a part of the walk that declares names in the innermost scope. -/
theorem StandsAt.behind (h : StandsAt a r) (hsame : SameOuter r r')
    (hscopes : r'.scopes = (r.behind names).scopes) : StandsAt (a.behind names) r' :=
  ⟨(h.surrounds.of_sameOuter hsame).of_constructs rfl, (h.declares.behind names).of_scopes hscopes,
    h.free, hsame.initializing? h.notInitializing⟩

theorem StandsAt.define_declare (h : StandsAt a r) (name : Token) :
    StandsAt (a.behind [name.lexeme]) ((r.declare name).define name) :=
  h.behind ((sameOuter_declare name r).trans (sameOuter_define name _))
    (scopes_define_declare (SameScopes.refl (r.declare name)))

/-- Within its initializer a variable is declared, but cannot be read yet. -/
theorem StandsAt.enterInitializer (h : StandsAt a r) (name : Token) :
    StandsIn (a.initializing name) ((r.declare name).enterInitializer name.lexeme) := by
  have hscopes : ((r.declare name).enterInitializer name.lexeme).scopes =
      (r.mark name.lexeme false).scopes := by
    rw [← scopes_declare]
    unfold Resolution.enterInitializer
    split <;> rfl
  have hsurrounds : Surrounds a ((r.declare name).enterInitializer name.lexeme) := by
    have hdeclared := h.surrounds.of_sameOuter (sameOuter_declare name r)
    unfold Resolution.enterInitializer
    split
    · exact ⟨hdeclared.1, hdeclared.2, hdeclared.3, hdeclared.4, hdeclared.5⟩
    · exact hdeclared
  refine ⟨hsurrounds.of_constructs rfl, ?_⟩
  intro place
  rw [scopes_mark] at hscopes
  unfold Resolution.readFault?
  cases hinner : r.scopes with
  | nil =>
    have hglobal := h.surrounds.isLocal.mp hinner
    have hdeclared : (r.declare name).scopes = [] := by rw [scopes_declare, scopes_mark, hinner]
    rw [hinner] at hscopes
    rw [hscopes]
    simp [Resolution.enterInitializer, hdeclared, Site.cause?, hglobal]
  | cons scope outer =>
    rw [hinner] at hscopes
    rw [hscopes]
    have hreadable := (h.declares scope (by rw [hinner]; rfl) place.name).2
    have hlocal := h.surrounds.isLocal_of_cons hinner
    by_cases hname : place.name = name.lexeme
    · simp [Bindings.find?_insert, hname, Site.cause?, hlocal]
    · simp [Bindings.find?_insert, hname, Ne.symm hname, hreadable, Site.cause?]

theorem Around.inLoop_within {construct : Construct} :
    (a.within construct).InLoop ↔
      construct.routine? = none ∧ (construct = .loop ∨ a.InLoop) := by
  cases construct with
  | routine isInitializer => simp [InLoop, within, Construct.routine?]
  | _ => simp [InLoop, within, Construct.routine?]

theorem StandsAt.openScope (h : StandsAt a r) : StandsAt (a.within .block) r.openScope := by
  obtain ⟨htop, hinit, hclass, (hloop : r.openScope.loopDepth = 0 ↔ _), hlocal⟩ := h.surrounds
  refine ⟨⟨htop, hinit, hclass, ?_, ?_⟩, declares_openScope r, rfl, h.notInitializing⟩
  · rw [Around.inLoop_within]
    simpa [Construct.routine?] using hloop
  · simp [Around.isLocal, Around.within, Construct.hasScope, Resolution.openScope]

theorem StandsAt.enterLoop (h : StandsAt a r) : StandsAt a.withinLoop r.enterLoop := by
  obtain ⟨htop, hinit, hclass, hloop, hlocal⟩ := h.surrounds
  refine ⟨⟨htop, hinit, hclass, ?_, hlocal⟩, h.declares, h.free, h.notInitializing⟩
  simp [Around.InLoop, Around.withinLoop, Construct.routine?, Resolution.enterLoop]

/-- Within a routine the innermost routine is known, and no loop is around. -/
theorem Surrounds.enterRoutine (h : Surrounds a r) (hnone : r.initializing? = none)
    {routine : EnclosingRoutine} {isInitializer : Bool} (hroutine : routine ≠ .topLevel)
    (hinit : routine = .initializer ↔ isInitializer = true) :
    StandsAt (a.within (.routine isInitializer))
      ({ r with routine := routine, loopDepth := 0 } : Resolution).openScope := by
  refine ⟨⟨?_, ?_, h.enclosingClass, ?_, ?_⟩, declares_openScope _, rfl, hnone⟩
  · simp [Resolution.openScope, hroutine]
  · simp [Resolution.openScope, hinit]
  · simp [Around.inLoop_within, Construct.routine?, Resolution.openScope]
  · simp [Around.isLocal, Around.within, Construct.hasScope, Resolution.openScope]

/-- Within a class the innermost class is known. -/
theorem Surrounds.enterClassBody (h : Surrounds a r) (name : Token)
    (superclass : Option Occurrence) :
    Surrounds (a.within (.class superclass.isSome))
      ((r.enterClass name superclass).enterClassBody superclass.isSome) := by
  have hclass := enclosingClass_enterClassBody name superclass r
  have hsame := sameOuter_enterClass name superclass r
  have hroutine : ((r.enterClass name superclass).enterClassBody superclass.isSome).routine =
      r.routine := by
    cases superclass <;> exact hsame.routine
  have hdepth : ((r.enterClass name superclass).enterClassBody superclass.isSome).loopDepth =
      r.loopDepth := by
    cases superclass <;> exact hsame.loopDepth
  constructor
  · rw [hroutine]
    exact h.topLevel
  · rw [hroutine]
    exact h.initializer
  · rw [hclass]
    cases superclass <;> rfl
  · rw [hdepth, h.loop]
    simp [Around.inLoop_within, Construct.routine?]
  · rw [scopes_enterClassBody]
    simp [Around.isLocal, Around.within, Construct.hasScope]

/-! ### Statements -/

theorem StandsAt.reports_declareParameters {parameters : List Token} (h : StandsAt a r) :
    Reports r (r.declareParameters parameters) (Token.spots a parameters) ∧
      StandsAt (a.behind (parameters.map Token.lexeme)) (r.declareParameters parameters) := by
  induction parameters generalizing a r with
  | nil =>
    rw [List.map_nil, Around.behind_nil]
    exact ⟨reports_of_eq rfl, h⟩
  | cons parameter rest ih =>
    have hdeclare := (h.surrounds.reports_declare h.declares parameter).trans
      (reports_define parameter _)
    obtain ⟨hrest, hstands⟩ := ih (h.define_declare parameter)
    rw [Around.behind_behind] at hstands
    exact ⟨hdeclare.trans hrest, hstands⟩

/-- The name and the superclass of a class are checked before its methods. -/
theorem StandsAt.reports_enterClass (h : StandsAt a r) (name : Token)
    (superclass : Option Occurrence) :
    Reports r (r.enterClass name superclass)
      (⟨a, .declaration name⟩ :: superclass.toList.map fun parent => ⟨a, .superclass name parent⟩) := by
  have hcause := h.surrounds.cause?_declaration h.declares name
  have hmark := reports_mark name.lexeme false { r with enclosingClass := .base }
  have hdeclare := (hmark.trans (reports_reportIf _ hcause _)).trans (reports_define name _)
  cases superclass with
  | none => exact hdeclare
  | some parent =>
    have hself : (Site.superclass name parent).cause? a =
        if decide (parent.name = name.lexeme) then some .inheritsFromItself else none := by
      simp [Site.cause?]
    have hread : Reports (r.enterSuperclass name parent)
        ((r.enterSuperclass name parent).read parent) [] := by
      have hdeclares := (h.declares.mark name.lexeme).of_scopes
        (scopes_enterSuperclass name parent r)
      have hname := (sameOuter_declare name { r with enclosingClass := .base }).trans
        (sameOuter_define name _)
      have hnone := (hname.trans (sameScopes_reportIf (parent.name = name.lexeme)
        .inheritsFromItself parent.token _).outer).initializing? h.notInitializing
      unfold Resolution.read
      rw [hdeclares.readFault? hnone]
      exact reports_locate parent _
    exact (hdeclare.trans (reports_reportIf _ hself _)).trans hread

/-- A part of a walk that itself says what it reports, with nothing before or behind it. -/
theorem Reports.congr (h : Reports r r' spots) (hbefore : r''.errors = r.errors) {r₃ : Resolution}
    (hbehind : r₃.errors = r'.errors) : Reports r'' r₃ spots := by
  rw [Reports, hbehind, h, hbefore]

theorem reports_inInitializer {name : String} {value : Expr}
    (h : Reports (r.enterInitializer name) (value.resolve (r.enterInitializer name)) spots) :
    Reports r (r.inInitializer name value.resolve) spots := by
  unfold Resolution.enterInitializer at h
  unfold inInitializer
  cases hscopes : r.scopes with
  | nil =>
    rw [hscopes] at h
    exact h.congr rfl rfl
  | cons scope outer =>
    rw [hscopes] at h
    exact h

theorem Surrounds.reports_returning (h : Surrounds a r) (keyword : Token) :
    Reports r (r.reportIf (r.routine = .topLevel) .returnAtTopLevel keyword)
      [⟨a, .returning keyword false⟩] := by
  refine reports_reportIf (.returning keyword false) ?_ r
  cases hroutine : a.routine? with
  | none => simp [Site.cause?, hroutine, h.topLevel]
  | some isInitializer => simp [Site.cause?, hroutine, h.topLevel]

/-- No return is both at the top level and in an initializer. -/
theorem Surrounds.reports_returning_value (h : Surrounds a r) (keyword : Token) :
    Reports r ((r.reportIf (r.routine = .topLevel) .returnAtTopLevel keyword).reportIf
      ((r.reportIf (r.routine = .topLevel) .returnAtTopLevel keyword).routine = .initializer)
      .returnValueFromInitializer keyword) [⟨a, .returning keyword true⟩] := by
  by_cases htop : r.routine = .topLevel
  · have hnone := h.topLevel.mp htop
    simp [Reports, reportIf, report, htop, Spot.offence?, Site.cause?, Site.token, hnone]
  · have hcause : (Site.returning keyword true).cause? a =
        if decide (r.routine = .initializer) then some .returnValueFromInitializer else none := by
      cases hroutine : a.routine? with
      | none => exact absurd (h.topLevel.mpr hroutine) htop
      | some isInitializer => simp [Site.cause?, hroutine, h.initializer]
    simpa [reportIf, htop, Site.token] using reports_reportIf _ hcause r

theorem Surrounds.reports_breaking (h : Surrounds a r) (keyword : Token) :
    Reports r (r.reportIf (r.loopDepth = 0) .breakOutsideLoop keyword)
      [⟨a, .breaking keyword⟩] :=
  reports_reportIf (.breaking keyword) (by simp [Site.cause?, h.loop]) r

theorem Surrounds.reports_continuing (h : Surrounds a r) (keyword : Token) :
    Reports r (r.reportIf (r.loopDepth = 0) .continueOutsideLoop keyword)
      [⟨a, .continuing keyword⟩] :=
  reports_reportIf (.continuing keyword) (by simp [Site.cause?, h.loop]) r

theorem StandsAt.behind_expr (h : StandsAt a r) (e : Expr) : StandsAt a (e.resolve r) := by
  have hbehind : StandsAt (a.behind []) (e.resolve r) :=
    h.behind (e.sameScopes_resolve r).outer (e.sameScopes_resolve r).scopes
  rwa [Around.behind_nil] at hbehind

mutual

/-- A statement is resolved with the offences of its spots. -/
theorem Stmt.reports_resolve : (s : Stmt) → {a : Around} → {r : Resolution} → StandsAt a r →
    Reports r (s.resolve r) (s.spots a)
  -- The passages in front of a part take the surroundings along, so that the part stands where
  -- its own offences are asked for.
  | .expression value, _, _, h => value.reports_resolve h.standsIn
  | .var name none, _, _, h =>
    (h.surrounds.reports_declare h.declares name).trans (reports_define name _)
  | .var name (some value), _, _, h => by
    -- The name stands as being initialized while its initializer is resolved.
    have hvalue := reports_inInitializer (value.reports_resolve (h.enterInitializer name))
    have hall := ((h.surrounds.reports_declare h.declares name).trans hvalue).trans
      (reports_define name _)
    rw [List.append_nil] at hall
    exact hall
  | .block body, _, _, h => (Stmt.reports_resolveEach body h.openScope).congr rfl rfl
  | .conditional condition thenBranch none, _, _, h =>
    (condition.reports_resolve h.standsIn).trans
      (thenBranch.reports_resolve (h.behind_expr condition))
  | .conditional condition thenBranch (some elseBranch), _, _, h => by
    have hcondition := h.behind_expr condition
    have hthen := hcondition.behind (thenBranch.sameOuter_resolve _) (thenBranch.scopes_behind _)
    exact ((condition.reports_resolve h.standsIn).trans
      (thenBranch.reports_resolve hcondition)).trans (elseBranch.reports_resolve hthen)
  | .loop condition body increment, _, r, h => by
    -- Condition, body and increment follow each other; only the body stands in the loop.
    have hcondition := h.behind_expr condition
    have hbody : Reports (condition.resolve r) ((condition.resolve r).inLoop body.resolve) _ :=
      (body.reports_resolve hcondition.enterLoop).congr rfl rfl
    have hbehind := hcondition.behind (sameOuter_inLoop fun _ => body.sameOuter_resolve _)
      ((body.scopes_behind _).trans (scopes_behind_congr _ rfl))
    exact ((condition.reports_resolve h.standsIn).trans hbody).trans
      (Expr.reports_resolveIn? increment hbehind.standsIn)
  | .function declaration, _, _, h => by
    -- The function's name is defined before its body, which is resolved with it in scope.
    have hname := h.define_declare declaration.name
    have hdeclare := (h.surrounds.reports_declare h.declares declaration.name).trans
      (reports_define declaration.name _)
    have hbody := declaration.reports_resolve .function false
      (hname.surrounds.of_constructs rfl) hname.notInitializing nofun (by simp)
    exact hdeclare.trans hbody
  | .returning keyword none, _, _, h => h.surrounds.reports_returning keyword
  | .returning keyword (some value), _, r, h => by
    -- The two reports about a `return` leave the scopes as they are.
    have hsame := (sameScopes_reportIf (r.routine = .topLevel) .returnAtTopLevel keyword r).trans
      (sameScopes_reportIf ((r.reportIf (r.routine = .topLevel) .returnAtTopLevel
        keyword).routine = .initializer) .returnValueFromInitializer keyword _)
    exact (h.surrounds.reports_returning_value keyword).trans
      (value.reports_resolve (h.standsIn.of_sameScopes hsame))
  | .breaking keyword, _, _, h => h.surrounds.reports_breaking keyword
  | .continuing keyword, _, _, h => h.surrounds.reports_continuing keyword
  | .class name superclass methods, _, r, h => by
    -- The class's own name and its superclass are resolved outside of the body.
    have hclass := h.reports_enterClass name superclass
    have hnone := (sameOuter_enterClass name superclass r).initializing? h.notInitializing
    have hsurrounds := h.surrounds.enterClassBody name superclass
    cases superclass with
    | none =>
      have hmethods := FunctionDecl.reports_resolveMethods methods hsurrounds hnone
      exact hclass.trans (hmethods.congr rfl rfl)
    | some parent =>
      have hmethods := FunctionDecl.reports_resolveMethods methods hsurrounds hnone
      exact hclass.trans (hmethods.congr rfl rfl)
termination_by structural s => s

/-- Statements are resolved with the offences of their spots. -/
theorem Stmt.reports_resolveEach : (ss : List Stmt) → {a : Around} → {r : Resolution} →
    StandsAt a r → Reports r (Stmt.resolveEach ss r) (Stmt.spotsEach ss a)
  | [], _, _, _ => reports_of_eq rfl
  | s :: rest, _, _, h =>
    (s.reports_resolve h).trans
      (Stmt.reports_resolveEach rest (h.behind (s.sameOuter_resolve _) (s.scopes_behind _)))
termination_by structural ss => ss

/-- A function is resolved with the offences of its parameters and its body. -/
theorem FunctionDecl.reports_resolve (routine : EnclosingRoutine) (isInitializer : Bool) :
    (d : FunctionDecl) → {a : Around} → {r : Resolution} → Surrounds a r →
    r.initializing? = none → routine ≠ .topLevel →
    (routine = .initializer ↔ isInitializer = true) →
    Reports r (d.resolve routine r) (d.spots (a.within (.routine isInitializer)))
  | ⟨_, _, body⟩, _, _, h, hnone, hroutine, hinit => by
    obtain ⟨hparameters, hstands⟩ :=
      (h.enterRoutine hnone hroutine hinit).reports_declareParameters
    exact (hparameters.trans (Stmt.reports_resolveEach body hstands)).congr rfl rfl
termination_by structural d => d

/-- Methods are resolved with the offences of each of them. -/
theorem FunctionDecl.reports_resolveMethods : (ds : List FunctionDecl) → {a : Around} →
    {r : Resolution} → Surrounds a r → r.initializing? = none →
    Reports r (FunctionDecl.resolveMethods ds r) (FunctionDecl.spotsEach ds a)
  | [], _, _, _, _ => reports_of_eq rfl
  | d :: rest, _, r, h, hnone => by
    have hmethod := d.reports_resolve (if d.isInitializer then .initializer else .method)
      d.isInitializer h hnone (by split <;> nofun)
      (by split <;> simp_all)
    have hsame := d.sameOuter_resolve (if d.isInitializer then .initializer else .method) r
    exact hmethod.trans (FunctionDecl.reports_resolveMethods rest (h.of_sameOuter hsame)
      (hsame.initializing? hnone))
termination_by structural ds => ds

end

/-! ### Programs -/

theorem standsAt_initial : StandsAt {} {} := by
  refine ⟨⟨by decide, by decide, rfl, by decide, by decide⟩, ?_, rfl, rfl⟩
  intro scope hscope
  cases hscope

theorem errors_resolveEach (program : List Stmt) :
    (Stmt.resolveEach program {}).errors = Stmt.offences program :=
  Eq.trans (Stmt.reports_resolveEach program standsAt_initial) (List.nil_append _)

theorem Stmt.offences_ne_nil_iff (program : List Stmt) :
    Stmt.offences program ≠ [] ↔
      ∃ spot ∈ Stmt.spotsEach program {}, spot.site.cause? spot.around ≠ none := by
  simp [Stmt.offences, Spot.offence?]

theorem Resolution.run_eq_error_iff (program : List Stmt) (errors : List ScopeError) :
    Resolution.run program = .error errors ↔
      errors = Stmt.offences program ∧ Stmt.offences program ≠ [] := by
  unfold Resolution.run
  simp only [errors_resolveEach, List.isEmpty_iff]
  split
  · rename_i hclean
    simp [hclean]
  · rename_i hoffences
    simp [hoffences, eq_comm]

/--
Resolution rejects just those programs in which some site offends against a rule where
it stands.  It reports each of these sites once, in the order of the walk, at the line
of its token, and nothing else.
-/
theorem Resolution.run_rejects_offences (program : List Stmt) :
    ((∃ errors, Resolution.run program = .error errors) ↔
      ∃ spot ∈ Stmt.spotsEach program {}, spot.site.cause? spot.around ≠ none) ∧
    (∀ errors, Resolution.run program = .error errors → errors = Stmt.offences program) ∧
    (∀ (spot : Spot) (error : ScopeError), spot.offence? = some error →
      (Diagnostic.scope error).line? = some spot.site.token.line ∧
        (Diagnostic.scope error).near? = some spot.site.token.near) := by
  refine ⟨?_, ?_, ?_⟩
  · rw [← Stmt.offences_ne_nil_iff]
    constructor
    · rintro ⟨errors, herrors⟩
      exact ((run_eq_error_iff program errors).mp herrors).2
    · intro hoffences
      exact ⟨_, (run_eq_error_iff program _).mpr ⟨rfl, hoffences⟩⟩
  · intro errors herrors
    exact ((run_eq_error_iff program errors).mp herrors).1
  · intro spot error herror
    obtain ⟨cause, -, rfl⟩ := Option.map_eq_some_iff.mp herror
    exact ⟨rfl, rfl⟩

end Lox
