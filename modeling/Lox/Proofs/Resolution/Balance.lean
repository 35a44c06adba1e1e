import Lox.Proofs.Parser.Acceptance
import Lox.Proofs.Parser.Identities
import Lox.Proofs.Resolution.Additions
import Lox.Proofs.Token.Spelling

/-!
# A balanced walk

Resolution goes through the expressions and statements of a program one by one, those
inside of others included.  Behind each of them the walk is balanced: what it opened is
closed, the surroundings are those from before, errors and distances were only added, and
of the open scopes only the innermost one has changed, by the names that the statement
itself declares.  This does not depend on whether there were errors on the way.
-/

namespace Lox

open Resolution

/-! ### The parts of a walk -/

/-- A tree that the walk goes through on its own. -/
inductive Subject where
  | expression (e : Expr)
  | statement (s : Stmt)

namespace Subject

def resolve : Subject → Resolution → Resolution
  | expression e => e.resolve
  | statement s => s.resolve

def occurrences : Subject → List (OccurrenceKind × Occurrence)
  | expression e => e.occurrences
  | statement s => s.occurrences

/-- The names that the tree declares in the scope it stands in. -/
def declares : Subject → List String
  | expression _ => []
  | statement s => s.declares

end Subject

/-- A tree that the walk goes through, and the state in front of it. -/
structure Passage where
  subject : Subject
  before : Resolution

def Passage.after (p : Passage) : Resolution := p.subject.resolve p.before

mutual

/-- The trees that the walk goes through in an expression, itself included. -/
def Expr.passages (e : Expr) (r : Resolution) : List Passage :=
  ⟨.expression e, r⟩ ::
    match e with
    | .literal _ | .read _ | .this _ | .super _ _ => []
    | .unary _ operand => operand.passages r
    | .binary left _ right | .logical left _ right =>
      left.passages r ++ right.passages (left.resolve r)
    | .group inner => inner.passages r
    | .assign _ value => value.passages r
    | .call callee _ arguments =>
      callee.passages r ++ Expr.passagesEach arguments (callee.resolve r)
    | .get object _ => object.passages r
    | .set object _ value => value.passages r ++ object.passages (value.resolve r)
termination_by structural e

def Expr.passagesEach : List Expr → Resolution → List Passage
  | [], _ => []
  | e :: rest, r => e.passages r ++ Expr.passagesEach rest (e.resolve r)
termination_by structural es => es

end

def Expr.passagesIn? : Option Expr → Resolution → List Passage
  | none, _ => []
  | some e, r => e.passages r

/-- A superclass is read like a variable. -/
def Occurrence.passagesIn? (name : Token) : Option Occurrence → Resolution → List Passage
  | none, _ => []
  | some parent, r => [⟨.expression (.read parent), r.enterSuperclass name parent⟩]

mutual

def Stmt.passages (s : Stmt) (r : Resolution) : List Passage :=
  ⟨.statement s, r⟩ ::
    match s with
    | .expression value => value.passages r
    | .var _ none | .returning _ none | .breaking _ | .continuing _ => []
    | .var name (some value) => value.passages ((r.declare name).enterInitializer name.lexeme)
    | .block body => Stmt.passagesEach body r.openScope
    | .conditional condition thenBranch none =>
      condition.passages r ++ thenBranch.passages (condition.resolve r)
    | .conditional condition thenBranch (some elseBranch) =>
      condition.passages r ++ thenBranch.passages (condition.resolve r) ++
        elseBranch.passages (thenBranch.resolve (condition.resolve r))
    | .loop condition body increment =>
      condition.passages r ++ body.passages (condition.resolve r).enterLoop ++
        Expr.passagesIn? increment ((condition.resolve r).inLoop body.resolve)
    | .function declaration =>
      declaration.passages .function ((r.declare declaration.name).define declaration.name)
    | .returning keyword (some value) =>
      let r := r.reportIf (r.routine = .topLevel) .returnAtTopLevel keyword
      value.passages (r.reportIf (r.routine = .initializer) .returnValueFromInitializer keyword)
    | .class name superclass methods =>
      Occurrence.passagesIn? name superclass r ++
        FunctionDecl.passagesMethods methods
          ((r.enterClass name superclass).enterClassBody superclass.isSome)
termination_by structural s

def Stmt.passagesEach : List Stmt → Resolution → List Passage
  | [], _ => []
  | s :: rest, r => s.passages r ++ Stmt.passagesEach rest (s.resolve r)
termination_by structural ss => ss

def FunctionDecl.passages (routine : EnclosingRoutine) : FunctionDecl → Resolution → List Passage
  | ⟨_, parameters, body⟩, r => Stmt.passagesEach body (r.enterRoutine routine parameters)
termination_by structural d => d

def FunctionDecl.passagesMethods : List FunctionDecl → Resolution → List Passage
  | [], _ => []
  | d :: rest, r =>
    let routine := if d.isInitializer then .initializer else .method
    d.passages routine r ++ FunctionDecl.passagesMethods rest (d.resolve routine r)
termination_by structural ds => ds

end

/-! ### Between two trees -/

/-- No distance is noted yet for the occurrences, and each of them has an identity of its own. -/
structure Fresh (entries : List (OccurrenceKind × Occurrence)) (r : Resolution) : Prop where
  nodup : (entries.map fun entry => entry.2.id).Nodup
  absent : ∀ entry ∈ entries, r.distances[entry.2.id]? = none

namespace Fresh

variable {entries entries' : List (OccurrenceKind × Occurrence)} {r r' : Resolution}

theorem swap (h : Fresh (entries ++ entries') r) : Fresh (entries' ++ entries) r := by
  refine ⟨(List.perm_append_comm.map _).nodup_iff.mp h.nodup, ?_⟩
  intro entry hentry
  exact h.absent entry (List.perm_append_comm.mem_iff.mp hentry)

theorem left (h : Fresh (entries ++ entries') r) : Fresh entries r := by
  have hnodup := h.nodup
  rw [List.map_append] at hnodup
  exact ⟨(List.nodup_append.mp hnodup).1, fun entry hentry =>
    h.absent entry (List.mem_append_left _ hentry)⟩

theorem tail {entry : OccurrenceKind × Occurrence} (h : Fresh (entry :: entries) r) :
    Fresh entries r := by
  have hswapped : Fresh (entries ++ [entry]) r := swap h
  exact hswapped.left

/-- Behind a part of a walk the occurrences of other parts are still fresh. -/
theorem right (h : Fresh (entries ++ entries') r) (hadds : Adds entries r r') :
    Fresh entries' r' := by
  have hnodup := h.nodup
  rw [List.map_append] at hnodup
  refine ⟨(List.nodup_append.mp hnodup).2.1, ?_⟩
  intro entry hentry
  rw [hadds.distances, h.absent entry (List.mem_append_right _ hentry)]
  intro other hother
  exact (List.nodup_append.mp hnodup).2.2 _ (List.mem_map_of_mem hother) _
    (List.mem_map_of_mem hentry)

/-- Steps that look nothing up leave occurrences fresh. -/
theorem step (h : Fresh entries r) (hadds : Adds [] r r') : Fresh entries r' := by
  have hnone : Fresh ([] ++ entries) r := h
  exact hnone.right hadds

end Fresh

/-- Between two statements every name can be read, and no global is being initialized. -/
structure Clear (r : Resolution) : Prop where
  readable : ∀ scope ∈ r.scopes, ∀ name, scope.find? name ≠ some false
  initializing? : r.initializing? = none

namespace Clear

variable {r r' : Resolution}

theorem initial : Clear {} := ⟨fun _ h => absurd h List.not_mem_nil, rfl⟩

theorem of_scopes (h : Clear r) (hscopes : r'.scopes = r.scopes)
    (hinitializing : r'.initializing? = none) : Clear r' :=
  ⟨by rw [hscopes]; exact h.readable, hinitializing⟩

theorem of_sameScopes (h : Clear r) (hsame : SameScopes r r') : Clear r' :=
  h.of_scopes hsame.scopes (hsame.initializing?.trans h.initializing?)

theorem openScope (h : Clear r) : Clear r.openScope := by
  refine ⟨?_, h.initializing?⟩
  intro scope hscope name
  rcases List.mem_cons.mp hscope with rfl | hscope
  · exact nofun
  · exact h.readable scope hscope name

theorem mark (h : Clear r) (name : String) : Clear (r.mark name true) := by
  refine ⟨?_, (sameOuter_mark name true r).initializing? h.initializing?⟩
  rw [scopes_mark]
  cases hscopes : r.scopes with
  | nil => exact fun _ hscope => absurd hscope List.not_mem_nil
  | cons inner outer =>
    intro scope hscope other
    rcases List.mem_cons.mp hscope with rfl | hscope
    · rw [Bindings.find?_insert]
      split
      · simp
      · exact h.readable inner (hscopes ▸ List.mem_cons_self) other
    · exact h.readable scope (hscopes ▸ List.mem_cons_of_mem _ hscope) other

theorem behind (h : Clear r) (names : List String) : Clear (r.behind names) := by
  induction names generalizing r with
  | nil => exact h
  | cons name names ih => exact ih (h.mark name)

/-- A name that is declared and defined at once can be read. -/
theorem define_declare (h : Clear r) (token : Token) : Clear ((r.declare token).define token) :=
  (h.mark token.lexeme).of_scopes (scopes_define_declare (SameScopes.refl (r.declare token)))
    (((sameOuter_declare token r).trans (sameOuter_define token _)).initializing? h.initializing?)

theorem declareParameters (h : Clear r) (parameters : List Token) :
    Clear (r.declareParameters parameters) := by
  induction parameters generalizing r with
  | nil => exact h
  | cons parameter parameters ih => exact ih (h.define_declare parameter)

theorem enterRoutine (h : Clear r) (routine : EnclosingRoutine) (parameters : List Token) :
    Clear (r.enterRoutine routine parameters) := by
  have hentered : Clear { r with routine := routine, loopDepth := 0 } :=
    ⟨h.readable, h.initializing?⟩
  exact hentered.openScope.declareParameters parameters

theorem enterLoop (h : Clear r) : Clear r.enterLoop := ⟨h.readable, h.initializing?⟩

theorem enterClassBody (h : Clear r) (name : Token) (superclass : Option Occurrence) :
    Clear ((r.enterClass name superclass).enterClassBody superclass.isSome) := by
  have hclass : Clear (r.enterClass name superclass) :=
    (h.mark name.lexeme).of_scopes (scopes_enterClass name superclass r)
      ((sameOuter_enterClass name superclass r).initializing? h.initializing?)
  cases superclass with
  | none => exact hclass.openScope.mark "this"
  | some parent => exact (hclass.openScope.mark "super").openScope.mark "this"

theorem resolve (h : Clear r) (s : Stmt) : Clear (s.resolve r) :=
  (h.behind s.declares).of_scopes (s.scopes_behind r)
    ((s.sameOuter_resolve r).initializing? h.initializing?)

theorem resolveMethod (h : Clear r) (d : FunctionDecl) (routine : EnclosingRoutine) :
    Clear (d.resolve routine r) :=
  h.of_scopes (d.scopes_resolve routine r)
    ((d.sameOuter_resolve routine r).initializing? h.initializing?)

end Clear

/-! ### Balance -/

/-- What holds behind a tree, however the walk through it went. -/
structure Passage.Balanced (p : Passage) : Prop where
  depth : p.after.scopes.length = p.before.scopes.length
  outer : p.after.scopes.tail = p.before.scopes.tail
  /-- The innermost scope has the names that the tree itself declares, which can be read. -/
  innermost : ∀ scope ∈ p.before.scopes.head?, ∃ scope' ∈ p.after.scopes.head?, ∀ name,
    scope'.find? name = if name ∈ p.subject.declares then some true else scope.find? name
  readable : ∀ s, p.subject = .statement s →
    ∀ scope ∈ p.after.scopes, ∀ name, scope.find? name ≠ some false
  routine : p.after.routine = p.before.routine
  enclosingClass : p.after.enclosingClass = p.before.enclosingClass
  loopDepth : p.after.loopDepth = p.before.loopDepth
  initializing? : p.after.initializing? = p.before.initializing?
  errors : p.before.errors <+: p.after.errors
  kept : ∀ (id : NodeId) (d : Nat), p.before.distances[id]? = some d →
    p.after.distances[id]? = some d
  gained : ∀ id ∈ p.after.distances, id ∈ p.before.distances ∨
    ∃ entry ∈ p.subject.occurrences, entry.2.id = id

/-- Declared names are readable in the innermost scope, and the others are as they were. -/
theorem Resolution.find?_behind (names : List String) {r : Resolution} {scope : Scope}
    (h : scope ∈ r.scopes.head?) :
    ∃ scope' ∈ (r.behind names).scopes.head?, ∀ name,
      scope'.find? name = if name ∈ names then some true else scope.find? name := by
  induction names generalizing r scope with
  | nil => exact ⟨scope, h, fun _ => rfl⟩
  | cons declared names ih =>
    have hmark : scope.insert declared true ∈ (r.mark declared true).scopes.head? := by
      rw [scopes_mark]
      cases hscopes : r.scopes with
      | nil => simp [hscopes] at h
      | cons inner outer =>
        rw [hscopes] at h
        cases h
        rfl
    obtain ⟨scope', hscope', hfind⟩ := ih hmark
    refine ⟨scope', hscope', ?_⟩
    intro name
    rw [hfind, Bindings.find?_insert]
    by_cases hname : name = declared
    · simp [hname]
    · simp [hname]

/-- The distances that were noted stay, and new ones belong to the occurrences of the tree. -/
theorem Added.distances_of_fresh {entries : List (OccurrenceKind × Occurrence)}
    {r r' : Resolution} (h : Adds entries r r') (hfresh : Fresh entries r) :
    (∀ (id : NodeId) (d : Nat), r.distances[id]? = some d → r'.distances[id]? = some d) ∧
      ∀ id ∈ r'.distances, id ∈ r.distances ∨ ∃ entry ∈ entries, entry.2.id = id := by
  constructor
  · intro id d hid
    rw [h.distances, hid]
    intro entry hentry heq
    have habsent := hfresh.absent entry hentry
    rw [heq, hid] at habsent
    cases habsent
  · intro id hid
    by_cases hentry : ∃ entry ∈ entries, entry.2.id = id
    · exact .inr hentry
    · left
      rw [Std.TreeMap.mem_iff_isSome_getElem?] at hid ⊢
      rwa [h.distances id fun entry hmem heq => hentry ⟨entry, hmem, heq⟩] at hid

theorem Expr.balanced (e : Expr) {r : Resolution} (h : Fresh e.occurrences r) :
    Passage.Balanced ⟨.expression e, r⟩ := by
  have hsame := e.sameScopes_resolve r
  have hadds := e.adds r
  obtain ⟨hkept, hgained⟩ := hadds.distances_of_fresh h
  have houter := hsame.outer
  refine ⟨houter.length, houter.tail, ?_, nofun, hsame.routine, hsame.enclosingClass,
    hsame.loopDepth, hsame.initializing?, hadds.errors, hkept, hgained⟩
  intro scope hscope
  refine ⟨scope, ?_, fun _ => rfl⟩
  change scope ∈ (e.resolve r).scopes.head?
  rwa [hsame.scopes]

theorem Stmt.balanced (s : Stmt) {r : Resolution} (hclear : Clear r)
    (h : Fresh s.occurrences r) : Passage.Balanced ⟨.statement s, r⟩ := by
  have houter := s.sameOuter_resolve r
  have hadds := s.adds r
  obtain ⟨hkept, hgained⟩ := hadds.distances_of_fresh h
  have hbehind := hclear.resolve s
  refine ⟨houter.length, houter.tail, ?_, fun _ _ => hbehind.readable, houter.routine,
    houter.enclosingClass, houter.loopDepth,
    hbehind.initializing?.trans hclear.initializing?.symm, hadds.errors, hkept, hgained⟩
  intro scope hscope
  obtain ⟨scope', hscope', hfind⟩ := Resolution.find?_behind s.declares hscope
  refine ⟨scope', ?_, hfind⟩
  change scope' ∈ (s.resolve r).scopes.head?
  rwa [s.scopes_behind]

mutual

theorem Expr.balanced_passages : (e : Expr) → (r : Resolution) → Fresh e.occurrences r →
    ∀ p ∈ e.passages r, p.Balanced
  | .literal _, _, h | .read _, _, h | .this _, _, h | .super _ _, _, h =>
    List.forall_mem_singleton.mpr (Expr.balanced _ h)
  | .unary _ operand, r, h =>
    List.forall_mem_cons.mpr ⟨Expr.balanced _ h, operand.balanced_passages r h⟩
  | .binary left _ right, r, h | .logical left _ right, r, h =>
    List.forall_mem_cons.mpr ⟨Expr.balanced _ h, List.forall_mem_append.mpr
      ⟨left.balanced_passages r h.left, right.balanced_passages _ (h.right (left.adds r))⟩⟩
  | .group inner, r, h =>
    List.forall_mem_cons.mpr ⟨Expr.balanced _ h, inner.balanced_passages r h⟩
  | .assign _ value, r, h =>
    List.forall_mem_cons.mpr ⟨Expr.balanced _ h, value.balanced_passages r h.tail⟩
  | .call callee _ arguments, r, h =>
    List.forall_mem_cons.mpr ⟨Expr.balanced _ h, List.forall_mem_append.mpr
      ⟨callee.balanced_passages r h.left,
        Expr.balanced_passagesEach arguments _ (h.right (callee.adds r))⟩⟩
  | .get object _, r, h =>
    List.forall_mem_cons.mpr ⟨Expr.balanced _ h, object.balanced_passages r h⟩
  | .set object _ value, r, h =>
    List.forall_mem_cons.mpr ⟨Expr.balanced _ h, List.forall_mem_append.mpr
      ⟨value.balanced_passages r h.swap.left,
        object.balanced_passages _ (h.swap.right (value.adds r))⟩⟩
termination_by structural e => e

theorem Expr.balanced_passagesEach : (es : List Expr) → (r : Resolution) →
    Fresh (Expr.occurrencesEach es) r → ∀ p ∈ Expr.passagesEach es r, p.Balanced
  | [], _, _ => List.forall_mem_nil _
  | e :: rest, r, h =>
    List.forall_mem_append.mpr ⟨e.balanced_passages r h.left,
      Expr.balanced_passagesEach rest _ (h.right (e.adds r))⟩
termination_by structural es => es

end

theorem Expr.balanced_passagesIn? (e : Option Expr) (r : Resolution)
    (h : Fresh (Expr.occurrencesIn? e) r) : ∀ p ∈ Expr.passagesIn? e r, p.Balanced := by
  cases e with
  | none => exact List.forall_mem_nil _
  | some e => exact e.balanced_passages r h

mutual

theorem Stmt.balanced_passages : (s : Stmt) → (r : Resolution) → Clear r →
    -- A passage of a part starts behind the parts before it, which add occurrences of their own
    -- only; those of the part are still fresh there.
    Fresh s.occurrences r → ∀ p ∈ s.passages r, p.Balanced
  | .expression value, r, hclear, h =>
    List.forall_mem_cons.mpr ⟨Stmt.balanced _ hclear h, value.balanced_passages r h⟩
  | .var _ none, _, hclear, h | .returning _ none, _, hclear, h
  | .breaking _, _, hclear, h | .continuing _, _, hclear, h =>
    List.forall_mem_singleton.mpr (Stmt.balanced _ hclear h)
  | .var name (some value), r, hclear, h =>
    List.forall_mem_cons.mpr ⟨Stmt.balanced _ hclear h, value.balanced_passages _
      (h.step ((adds_declare name r).trans (adds_enterInitializer name.lexeme _)))⟩
  | .block body, r, hclear, h =>
    List.forall_mem_cons.mpr ⟨Stmt.balanced _ hclear h,
      Stmt.balanced_passagesEach body _ hclear.openScope (h.step (.refl r))⟩
  | .conditional condition thenBranch none, r, hclear, h =>
    List.forall_mem_cons.mpr ⟨Stmt.balanced _ hclear h, List.forall_mem_append.mpr
      ⟨condition.balanced_passages r h.left, thenBranch.balanced_passages _
        (hclear.of_sameScopes (condition.sameScopes_resolve r)) (h.right (condition.adds r))⟩⟩
  -- The branches start with the scopes of the condition, which change none.
  | .conditional condition thenBranch (some elseBranch), r, hclear, h => by
    have hthen := hclear.of_sameScopes (condition.sameScopes_resolve r)
    have hboth := (condition.adds r).append (thenBranch.adds _)
    exact List.forall_mem_cons.mpr ⟨Stmt.balanced _ hclear h, List.forall_mem_append.mpr
      ⟨List.forall_mem_append.mpr ⟨condition.balanced_passages r h.left.left,
        thenBranch.balanced_passages _ hthen (h.left.right (condition.adds r))⟩,
        elseBranch.balanced_passages _ (hthen.resolve thenBranch) (h.right hboth)⟩⟩
  -- The body starts with one more loop around it, which closes behind it.
  | .loop condition body increment, r, hclear, h => by
    have hbody := (hclear.of_sameScopes (condition.sameScopes_resolve r)).enterLoop
    have hboth := (condition.adds r).append (body.adds (condition.resolve r).enterLoop)
    exact List.forall_mem_cons.mpr ⟨Stmt.balanced _ hclear h, List.forall_mem_append.mpr
      ⟨List.forall_mem_append.mpr ⟨condition.balanced_passages r h.left.left,
        body.balanced_passages _ hbody (h.left.right (condition.adds r))⟩,
        Expr.balanced_passagesIn? increment _ (h.right hboth)⟩⟩
  | .function declaration, r, hclear, h =>
    List.forall_mem_cons.mpr ⟨Stmt.balanced _ hclear h, declaration.balanced_passages .function _
      (hclear.define_declare declaration.name)
      (h.step ((adds_declare declaration.name r).trans (adds_define declaration.name _)))⟩
  | .returning keyword (some value), r, hclear, h =>
    List.forall_mem_cons.mpr ⟨Stmt.balanced _ hclear h, value.balanced_passages _
      (h.step ((adds_reportIf _ _ keyword r).trans (adds_reportIf _ _ keyword _)))⟩
  | .class name none methods, r, hclear, h =>
    List.forall_mem_cons.mpr ⟨Stmt.balanced _ hclear h,
      FunctionDecl.balanced_passagesMethods methods _ (hclear.enterClassBody name none)
        (h.step ((adds_enterClass name none r).trans (adds_enterClassBody false _)))⟩
  -- The superclass is a read of its own, in front of the methods.
  | .class name (some parent) methods, r, hclear, h => by
    have hboth : Fresh ([(.read, parent)] ++ FunctionDecl.occurrencesEach methods) r := h
    have hread := hboth.left
    have hmethods := hboth.right
      ((adds_enterClass name (some parent) r).trans (adds_enterClassBody true _))
    exact List.forall_mem_cons.mpr ⟨Stmt.balanced _ hclear h, List.forall_mem_cons.mpr
      ⟨Expr.balanced (.read parent) (hread.step (adds_enterSuperclass name parent r)),
        FunctionDecl.balanced_passagesMethods methods _
          (hclear.enterClassBody name (some parent)) hmethods⟩⟩
termination_by structural s => s

theorem Stmt.balanced_passagesEach : (ss : List Stmt) → (r : Resolution) → Clear r →
    Fresh (Stmt.occurrencesEach ss) r → ∀ p ∈ Stmt.passagesEach ss r, p.Balanced
  | [], _, _, _ => List.forall_mem_nil _
  | s :: rest, r, hclear, h =>
    List.forall_mem_append.mpr ⟨s.balanced_passages r hclear h.left,
      Stmt.balanced_passagesEach rest _ (hclear.resolve s) (h.right (s.adds r))⟩
termination_by structural ss => ss

theorem FunctionDecl.balanced_passages (routine : EnclosingRoutine) :
    (d : FunctionDecl) → (r : Resolution) → Clear r → Fresh d.occurrences r →
      ∀ p ∈ d.passages routine r, p.Balanced
  | ⟨_, parameters, body⟩, r, hclear, h =>
    Stmt.balanced_passagesEach body _ (hclear.enterRoutine routine parameters)
      (h.step (adds_declareParameters parameters
        ({ r with routine := routine, loopDepth := 0 } : Resolution).openScope))
termination_by structural d => d

theorem FunctionDecl.balanced_passagesMethods : (ds : List FunctionDecl) → (r : Resolution) →
    Clear r → Fresh (FunctionDecl.occurrencesEach ds) r →
      ∀ p ∈ FunctionDecl.passagesMethods ds r, p.Balanced
  | [], _, _, _ => List.forall_mem_nil _
  | d :: rest, r, hclear, h =>
    List.forall_mem_append.mpr ⟨d.balanced_passages _ r hclear h.left,
      FunctionDecl.balanced_passagesMethods rest _ (hclear.resolveMethod d _)
        (h.right (d.adds _ r))⟩
termination_by structural ds => ds

end

/--
While a program that the parser makes is resolved, the walk is balanced behind each of its
expressions and statements, whether or not there were errors on the way.
-/
theorem Resolution.walk_balanced {tokens : List Token} {n : NodeId} {statements : List Stmt}
    (honly : Grammar.EndsWithOnlyEof tokens)
    (hparse : (Parser.parse tokens n).1 = .ok statements) :
    ∀ p ∈ Stmt.passagesEach statements {}, p.Balanced := by
  have hderived := Parser.derives_of_parse honly hparse
  have hids := Stmt.idsBetween_numberedEach n statements
  rw [Parser.parse_eq_numbered hderived, Except.ok.injEq] at hparse
  rw [hparse] at hids
  exact Stmt.balanced_passagesEach statements {} .initial
    ⟨hids.nodup, fun _ _ => Std.TreeMap.getElem?_emptyc⟩

/-- A program with one of each of the errors that a class in a function can have. -/
def faultyClass : String :=
  "fun f(a) \x7b var a = a; class B < B \x7b init() \x7b return super.x; \x7d \x7d \x7d return this;"

theorem faultyClass_balanced :
    ∃ statements, (Parser.parse (Item.tokens (Item.scan faultyClass)) 0).1 = .ok statements ∧
      (Stmt.resolveEach statements {}).errors.length = 6 ∧
      (Stmt.passagesEach statements {}).length = 9 ∧
      ∀ p ∈ Stmt.passagesEach statements {}, p.Balanced := by
  have hcounts : ((Parser.parse (Item.tokens (Item.scan faultyClass)) 0).1.toOption.any
      fun statements => (Stmt.resolveEach statements {}).errors.length = 6 ∧
        (Stmt.passagesEach statements {}).length = 9) = true := by decide +kernel
  obtain ⟨statements, hparse, htest⟩ := Parser.exists_of_any hcounts
  obtain ⟨herrors, hpassages⟩ := of_decide_eq_true htest
  exact ⟨statements, hparse, herrors, hpassages,
    Resolution.walk_balanced (Item.endsWithOnlyEof_scan faultyClass) hparse⟩

end Lox
