import Lox.Proofs.Resolution.Scopes

/-!
# What a walk adds

Whatever the walk of resolution goes through, it never takes an error back, and it notes
distances for no other occurrences than those of the tree it goes through.  This holds of
programs with errors as well.
-/

namespace Lox

open Resolution

/-- Errors are only appended, and distances are noted for the given occurrences only. -/
structure Added (entries : List (OccurrenceKind × Occurrence)) (errors : List ScopeError)
    (distances : Distances) (errors' : List ScopeError) (distances' : Distances) : Prop where
  errors : errors <+: errors'
  distances : ∀ id : NodeId, (∀ entry ∈ entries, entry.2.id ≠ id) →
    distances'[id]? = distances[id]?

/-- The walk from one state to another only adds to errors and distances. -/
abbrev Adds (entries : List (OccurrenceKind × Occurrence)) (r r' : Resolution) : Prop :=
  Added entries r.errors r.distances r'.errors r'.distances

namespace Added

variable {entries entries' : List (OccurrenceKind × Occurrence)} {r r' r'' : Resolution}

theorem refl (r : Resolution) : Adds entries r r := ⟨List.prefix_rfl, fun _ _ => rfl⟩

theorem weaken (h : Adds entries r r') (hsub : entries ⊆ entries') : Adds entries' r r' :=
  ⟨h.errors, fun id hid => h.distances id fun entry hentry => hid entry (hsub hentry)⟩

theorem trans (h : Adds entries r r') (h' : Adds entries r' r'') : Adds entries r r'' :=
  ⟨h.errors.trans h'.errors, fun id hid => (h'.distances id hid).trans (h.distances id hid)⟩

/-- One part of a walk after the other. -/
theorem append (h : Adds entries r r') (h' : Adds entries' r' r'') :
    Adds (entries ++ entries') r r'' :=
  (h.weaken (List.subset_append_left _ _)).trans (h'.weaken (List.subset_append_right _ _))

/-- The parts of a walk need not be in the order of the tree. -/
theorem append_swapped (h : Adds entries' r r') (h' : Adds entries r' r'') :
    Adds (entries ++ entries') r r'' :=
  (h.weaken (List.subset_append_right _ _)).trans (h'.weaken (List.subset_append_left _ _))

end Added

namespace Resolution

variable {entries : List (OccurrenceKind × Occurrence)} {r r' : Resolution}

theorem adds_report (cause : ScopeCause) (token : Token) (r : Resolution) :
    Adds entries r (r.report cause token) :=
  ⟨List.prefix_append _ _, fun _ _ => rfl⟩

theorem adds_reportIf (condition : Bool) (cause : ScopeCause) (token : Token) (r : Resolution) :
    Adds entries r (r.reportIf condition cause token) := by
  cases condition with
  | false => exact .refl r
  | true => exact adds_report cause token r

theorem adds_mark (name : String) (readable : Bool) (r : Resolution) :
    Adds entries r (r.mark name readable) := by
  unfold mark
  split
  · exact .refl r
  · exact ⟨List.prefix_rfl, fun _ _ => rfl⟩

theorem adds_declare (token : Token) (r : Resolution) : Adds entries r (r.declare token) :=
  (adds_mark _ _ r).trans (adds_reportIf _ _ _ _)

theorem adds_define (token : Token) (r : Resolution) : Adds entries r (r.define token) :=
  adds_mark _ _ r

theorem adds_declareParameters (parameters : List Token) (r : Resolution) :
    Adds entries r (r.declareParameters parameters) := by
  induction parameters generalizing r with
  | nil => exact .refl r
  | cons parameter parameters ih =>
    exact ((adds_declare parameter r).trans (adds_define parameter _)).trans (ih _)

theorem adds_locate (kind : OccurrenceKind) (place : Occurrence) (r : Resolution) :
    Adds [(kind, place)] r (r.locate place) := by
  unfold locate
  cases distance? r.scopes place.name with
  | none => exact .refl r
  | some distance =>
    refine ⟨List.prefix_rfl, ?_⟩
    intro id hid
    have hne : place.id ≠ id := hid (kind, place) List.mem_cons_self
    simp [Std.TreeMap.getElem?_insert, hne]

theorem adds_read (place : Occurrence) (r : Resolution) :
    Adds [(.read, place)] r (r.read place) := by
  unfold read
  cases r.readFault? place.name with
  | none => exact adds_locate .read place r
  | some cause => exact (adds_report cause place.token r).trans (adds_locate .read place _)

theorem adds_resolveThis (place : Occurrence) (r : Resolution) :
    Adds [(.this, place)] r (r.resolveThis place) := by
  unfold resolveThis
  cases r.enclosingClass with
  | outside => exact adds_report _ _ r
  | base | derived => exact adds_locate .this place r

theorem adds_resolveSuper (place : Occurrence) (r : Resolution) :
    Adds [(.super, place)] r (r.resolveSuper place) := by
  unfold resolveSuper
  cases r.enclosingClass with
  | outside | base => exact adds_report _ _ r
  | derived => exact adds_locate .super place r

theorem adds_inInitializer (name : String) {walk : Resolution → Resolution}
    (hwalk : ∀ r, Adds entries r (walk r)) (r : Resolution) :
    Adds entries r (r.inInitializer name walk) := by
  unfold inInitializer
  split
  · exact hwalk { r with initializing? := some name }
  · exact hwalk r

theorem adds_inScopeOf (name : String) {walk : Resolution → Resolution}
    (hwalk : ∀ r, Adds entries r (walk r)) (r : Resolution) :
    Adds entries r (r.inScopeOf name walk) :=
  Added.trans (adds_mark name true r.openScope) (hwalk _)

theorem adds_inClassBody (derived : Bool) {walk : Resolution → Resolution}
    (hwalk : ∀ r, Adds entries r (walk r)) (r : Resolution) :
    Adds entries r (r.inClassBody derived walk) := by
  cases derived with
  | false => exact adds_inScopeOf "this" hwalk r
  | true => exact adds_inScopeOf "super" (adds_inScopeOf "this" hwalk) r

theorem adds_enterSuperclass (name : Token) (parent : Occurrence) (r : Resolution) :
    Adds entries r (r.enterSuperclass name parent) :=
  (Added.trans (adds_declare name { r with enclosingClass := .base }) (adds_define name _)).trans
    (adds_reportIf (parent.name = name.lexeme) .inheritsFromItself parent.token _)

theorem adds_enterClass (name : Token) (superclass : Option Occurrence) (r : Resolution) :
    Adds (superclass.toList.map fun parent => (.read, parent)) r (r.enterClass name superclass) := by
  cases superclass with
  | none =>
    exact Added.trans (adds_declare name { r with enclosingClass := .base }) (adds_define name _)
  | some parent =>
    exact (adds_enterSuperclass name parent r).trans
      (adds_read parent (r.enterSuperclass name parent))

theorem adds_enterInitializer (name : String) (r : Resolution) :
    Adds entries r (r.enterInitializer name) := by
  unfold enterInitializer
  split
  · exact .refl r
  · exact .refl r

theorem adds_enterClassBody (derived : Bool) (r : Resolution) :
    Adds entries r (r.enterClassBody derived) := by
  cases derived with
  | false => exact adds_mark "this" true r.openScope
  | true =>
    exact Added.trans (adds_mark "super" true r.openScope)
      (adds_mark "this" true (r.openScope.mark "super" true).openScope)

end Resolution

mutual

theorem Expr.adds (r : Resolution) : (e : Expr) → Adds e.occurrences r (e.resolve r)
  | .literal _ => .refl r
  | .unary _ operand => operand.adds r
  | .binary left _ right | .logical left _ right => (left.adds r).append (right.adds _)
  | .group inner => inner.adds r
  | .read place => adds_read place r
  | .assign place value =>
    show Adds ([(.assign, place)] ++ value.occurrences) r _ from
      (value.adds r).append_swapped (adds_locate .assign place _)
  | .call callee _ arguments => (callee.adds r).append (Expr.addsEach _ arguments)
  | .get object _ => object.adds r
  | .set object _ value => (value.adds r).append_swapped (object.adds _)
  | .this place => adds_resolveThis place r
  | .super place _ => adds_resolveSuper place r
termination_by structural e => e

theorem Expr.addsEach (r : Resolution) :
    (es : List Expr) → Adds (Expr.occurrencesEach es) r (Expr.resolveEach es r)
  | [] => .refl r
  | e :: rest => (e.adds r).append (Expr.addsEach _ rest)
termination_by structural es => es

end

theorem Expr.addsIn? (r : Resolution) (e : Option Expr) :
    Adds (Expr.occurrencesIn? e) r (Expr.resolveIn? e r) := by
  cases e with
  | none => exact .refl r
  | some e => exact e.adds r

mutual

theorem Stmt.adds : (s : Stmt) → (r : Resolution) → Adds s.occurrences r (s.resolve r)
  | .expression value, r => value.adds r
  | .var name none, r => (adds_declare name r).trans (adds_define name _)
  | .var name (some value), r =>
    ((adds_declare name r).trans (adds_inInitializer _ (fun r => value.adds r) _)).trans
      (adds_define name _)
  | .block body, r => Stmt.addsEach body r.openScope
  | .conditional condition thenBranch none, r => (condition.adds r).append (thenBranch.adds _)
  | .conditional condition thenBranch (some elseBranch), r =>
    ((condition.adds r).append (thenBranch.adds _)).append (elseBranch.adds _)
  | .loop condition body increment, r =>
    ((condition.adds r).append (body.adds (condition.resolve r).enterLoop)).append
      (Expr.addsIn? ((condition.resolve r).inLoop body.resolve) increment)
  | .function declaration, r =>
    ((adds_declare _ r).trans (adds_define _ _)).trans (declaration.adds .function _)
  | .returning _ none, r => adds_reportIf _ _ _ r
  | .returning _ (some value), r =>
    ((adds_reportIf _ _ _ r).trans (adds_reportIf _ _ _ _)).trans (value.adds _)
  | .breaking _, r => adds_reportIf _ _ _ r
  | .continuing _, r => adds_reportIf _ _ _ r
  | .class name superclass methods, r => by
    have hclass := (adds_enterClass name superclass r).append
      (adds_inClassBody superclass.isSome (FunctionDecl.addsMethods methods) _)
    cases superclass with
    | none => exact hclass
    | some parent => exact hclass
termination_by structural s => s

theorem Stmt.addsEach :
    (ss : List Stmt) → (r : Resolution) → Adds (Stmt.occurrencesEach ss) r (Stmt.resolveEach ss r)
  | [], r => .refl r
  | s :: rest, r => (s.adds r).append (Stmt.addsEach rest _)
termination_by structural ss => ss

theorem FunctionDecl.adds (routine : EnclosingRoutine) :
    (d : FunctionDecl) → (r : Resolution) → Adds d.occurrences r (d.resolve routine r)
  | ⟨_, parameters, body⟩, r =>
    Added.trans (adds_declareParameters parameters
      ({ r with routine := routine, loopDepth := 0 } : Resolution).openScope)
      (Stmt.addsEach body _)
termination_by structural d => d

theorem FunctionDecl.addsMethods :
    (ds : List FunctionDecl) → (r : Resolution) →
      Adds (FunctionDecl.occurrencesEach ds) r (FunctionDecl.resolveMethods ds r)
  | [], r => .refl r
  | d :: rest, r => (d.adds _ r).append (FunctionDecl.addsMethods rest _)
termination_by structural ds => ds

end

end Lox
