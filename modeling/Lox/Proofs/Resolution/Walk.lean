import Lox.Proofs.Resolution.Visits

/-!
# What a walk leaves alone

An expression changes nothing of a resolution but the distances and the errors.  A
statement comes back to the surroundings it started in, and of the scopes it changes
only the innermost one.  Errors are never taken back, so a walk that ends without
errors met none on its way, and then it noted a distance exactly at its visits.
-/

namespace Lox

namespace Resolution

variable {r r' r'' : Resolution}

/-! ### Surroundings -/

/-- Two states in the same surroundings and with the same scopes. -/
structure SameScopes (r r' : Resolution) : Prop where
  scopes : r'.scopes = r.scopes
  routine : r'.routine = r.routine
  enclosingClass : r'.enclosingClass = r.enclosingClass
  loopDepth : r'.loopDepth = r.loopDepth
  initializing? : r'.initializing? = r.initializing?

theorem SameScopes.refl (r : Resolution) : SameScopes r r := ⟨rfl, rfl, rfl, rfl, rfl⟩

theorem SameScopes.trans (h : SameScopes r r') (h' : SameScopes r' r'') : SameScopes r r'' :=
  ⟨h'.scopes.trans h.scopes, h'.routine.trans h.routine,
    h'.enclosingClass.trans h.enclosingClass, h'.loopDepth.trans h.loopDepth,
    h'.initializing?.trans h.initializing?⟩

theorem sameScopes_report (cause : ScopeCause) (token : Token) (r : Resolution) :
    SameScopes r (r.report cause token) := ⟨rfl, rfl, rfl, rfl, rfl⟩

theorem sameScopes_reportIf (condition : Bool) (cause : ScopeCause) (token : Token)
    (r : Resolution) : SameScopes r (r.reportIf condition cause token) := by
  cases condition with
  | false => exact .refl r
  | true => exact sameScopes_report cause token r

theorem sameScopes_locate (place : Occurrence) (r : Resolution) :
    SameScopes r (r.locate place) := by
  unfold locate
  cases distance? r.scopes place.name with
  | none => exact .refl r
  | some distance => exact ⟨rfl, rfl, rfl, rfl, rfl⟩

theorem sameScopes_read (place : Occurrence) (r : Resolution) : SameScopes r (r.read place) := by
  unfold read
  cases r.readFault? place.name with
  | none => exact sameScopes_locate place r
  | some cause => exact (sameScopes_report cause place.token r).trans (sameScopes_locate place _)

theorem sameScopes_resolveThis (place : Occurrence) (r : Resolution) :
    SameScopes r (r.resolveThis place) := by
  unfold resolveThis
  cases r.enclosingClass with
  | outside => exact sameScopes_report _ _ r
  | base => exact sameScopes_locate place r
  | derived => exact sameScopes_locate place r

theorem sameScopes_resolveSuper (place : Occurrence) (r : Resolution) :
    SameScopes r (r.resolveSuper place) := by
  unfold resolveSuper
  cases r.enclosingClass with
  | outside => exact sameScopes_report _ _ r
  | base => exact sameScopes_report _ _ r
  | derived => exact sameScopes_locate place r

end Resolution

open Resolution

mutual

theorem Expr.sameScopes_resolve (r : Resolution) : (e : Expr) → SameScopes r (e.resolve r)
  | .literal _ => .refl r
  | .unary _ operand => operand.sameScopes_resolve r
  | .binary left _ right | .logical left _ right =>
    (left.sameScopes_resolve r).trans (right.sameScopes_resolve _)
  | .group inner => inner.sameScopes_resolve r
  | .read place => sameScopes_read place r
  | .assign place value => (value.sameScopes_resolve r).trans (sameScopes_locate place _)
  | .call callee _ arguments =>
    (callee.sameScopes_resolve r).trans (Expr.sameScopes_resolveEach _ arguments)
  | .get object _ => object.sameScopes_resolve r
  | .set object _ value => (value.sameScopes_resolve r).trans (object.sameScopes_resolve _)
  | .this place => sameScopes_resolveThis place r
  | .super place _ => sameScopes_resolveSuper place r
termination_by structural e => e

theorem Expr.sameScopes_resolveEach (r : Resolution) :
    (es : List Expr) → SameScopes r (Expr.resolveEach es r)
  | [] => .refl r
  | e :: rest => (e.sameScopes_resolve r).trans (Expr.sameScopes_resolveEach _ rest)
termination_by structural es => es

end

theorem Expr.sameScopes_resolveIn? (r : Resolution) (e : Option Expr) :
    SameScopes r (Expr.resolveIn? e r) := by
  cases e with
  | none => exact .refl r
  | some e => exact e.sameScopes_resolve r

mutual

/-- The scopes do not change within an expression. -/
theorem Expr.scopes_visits (r : Resolution) :
    (e : Expr) → ∀ v ∈ e.visits r, v.state.scopes = r.scopes
  | .literal _ => List.forall_mem_nil _
  | .unary _ operand => operand.scopes_visits r
  | .binary left _ right | .logical left _ right =>
    List.forall_mem_append.mpr ⟨left.scopes_visits r, fun v hv =>
      (right.scopes_visits _ v hv).trans (left.sameScopes_resolve r).scopes⟩
  | .group inner => inner.scopes_visits r
  | .read _ | .this _ | .super _ _ => List.forall_mem_singleton.mpr rfl
  | .assign _ value =>
    List.forall_mem_append.mpr ⟨value.scopes_visits r,
      List.forall_mem_singleton.mpr (value.sameScopes_resolve r).scopes⟩
  | .call callee _ arguments =>
    List.forall_mem_append.mpr ⟨callee.scopes_visits r, fun v hv =>
      (Expr.scopes_visitsEach _ arguments v hv).trans (callee.sameScopes_resolve r).scopes⟩
  | .get object _ => object.scopes_visits r
  | .set object _ value =>
    List.forall_mem_append.mpr ⟨value.scopes_visits r, fun v hv =>
      (object.scopes_visits _ v hv).trans (value.sameScopes_resolve r).scopes⟩
termination_by structural e => e

theorem Expr.scopes_visitsEach (r : Resolution) :
    (es : List Expr) → ∀ v ∈ Expr.visitsEach es r, v.state.scopes = r.scopes
  | [] => List.forall_mem_nil _
  | e :: rest =>
    List.forall_mem_append.mpr ⟨e.scopes_visits r, fun v hv =>
      (Expr.scopes_visitsEach _ rest v hv).trans (e.sameScopes_resolve r).scopes⟩
termination_by structural es => es

end

namespace Resolution

variable {r r' r'' : Resolution}

/-- Two states in the same surroundings, with the same scopes except the innermost one. -/
structure SameOuter (r r' : Resolution) : Prop where
  tail : r'.scopes.tail = r.scopes.tail
  length : r'.scopes.length = r.scopes.length
  routine : r'.routine = r.routine
  enclosingClass : r'.enclosingClass = r.enclosingClass
  loopDepth : r'.loopDepth = r.loopDepth
  initializing? : r.initializing? = none → r'.initializing? = none

theorem SameOuter.trans (h : SameOuter r r') (h' : SameOuter r' r'') : SameOuter r r'' :=
  ⟨h'.tail.trans h.tail, h'.length.trans h.length, h'.routine.trans h.routine,
    h'.enclosingClass.trans h.enclosingClass, h'.loopDepth.trans h.loopDepth,
    fun hnone => h'.initializing? (h.initializing? hnone)⟩

theorem SameScopes.outer (h : SameScopes r r') : SameOuter r r' :=
  ⟨by rw [h.scopes], by rw [h.scopes], h.routine, h.enclosingClass, h.loopDepth,
    fun hnone => h.initializing?.trans hnone⟩

theorem SameOuter.refl (r : Resolution) : SameOuter r r := (SameScopes.refl r).outer

theorem sameOuter_mark (name : String) (readable : Bool) (r : Resolution) :
    SameOuter r (r.mark name readable) := by
  unfold mark
  cases hscopes : r.scopes with
  | nil => exact .refl r
  | cons scope outer => exact ⟨by simp [hscopes], by simp [hscopes], rfl, rfl, rfl, id⟩

theorem sameOuter_declare (token : Token) (r : Resolution) : SameOuter r (r.declare token) :=
  (sameOuter_mark _ _ r).trans (sameScopes_reportIf _ _ _ _).outer

theorem sameOuter_define (token : Token) (r : Resolution) : SameOuter r (r.define token) :=
  sameOuter_mark _ _ r

theorem sameOuter_declareParameters (parameters : List Token) (r : Resolution) :
    SameOuter r (r.declareParameters parameters) := by
  induction parameters generalizing r with
  | nil => exact .refl r
  | cons parameter parameters ih =>
    exact ((sameOuter_declare parameter r).trans (sameOuter_define parameter _)).trans (ih _)

theorem sameOuter_inInitializer (name : String) {walk : Resolution → Resolution}
    (hwalk : ∀ r, SameScopes r (walk r)) (r : Resolution) :
    SameOuter r (r.inInitializer name walk) := by
  unfold inInitializer
  split
  · have hinner := (hwalk { r with initializing? := some name }).outer
    exact ⟨hinner.tail, hinner.length, hinner.routine, hinner.enclosingClass, hinner.loopDepth,
      fun _ => rfl⟩
  · exact (hwalk r).outer

/-! ### Leaving a scope -/

/-- Behind a scope the scopes are those from before it. -/
theorem scopes_inScope {walk : Resolution → Resolution}
    (hwalk : SameOuter r.openScope (walk r.openScope)) : (r.inScope walk).scopes = r.scopes :=
  hwalk.tail

theorem sameOuter_inScope {walk : Resolution → Resolution}
    (hwalk : SameOuter r.openScope (walk r.openScope)) : SameOuter r (r.inScope walk) :=
  ⟨by rw [scopes_inScope hwalk], by rw [scopes_inScope hwalk], hwalk.routine,
    hwalk.enclosingClass, hwalk.loopDepth, hwalk.initializing?⟩

theorem scopes_inScopeOf {name : String} {walk : Resolution → Resolution}
    (hwalk : ∀ r, SameOuter r (walk r)) : (r.inScopeOf name walk).scopes = r.scopes :=
  scopes_inScope ((sameOuter_mark _ _ _).trans (hwalk _))

theorem sameOuter_inScopeOf {name : String} {walk : Resolution → Resolution}
    (hwalk : ∀ r, SameOuter r (walk r)) : SameOuter r (r.inScopeOf name walk) :=
  sameOuter_inScope ((sameOuter_mark _ _ _).trans (hwalk _))

theorem scopes_inClassBody {derived : Bool} {walk : Resolution → Resolution}
    (hwalk : ∀ r, SameOuter r (walk r)) : (r.inClassBody derived walk).scopes = r.scopes := by
  cases derived with
  | false => exact scopes_inScopeOf hwalk
  | true => exact scopes_inScopeOf fun r => sameOuter_inScopeOf hwalk

theorem sameOuter_inClassBody {derived : Bool} {walk : Resolution → Resolution}
    (hwalk : ∀ r, SameOuter r (walk r)) : SameOuter r (r.inClassBody derived walk) := by
  cases derived with
  | false => exact sameOuter_inScopeOf hwalk
  | true => exact sameOuter_inScopeOf fun r => sameOuter_inScopeOf hwalk

theorem scopes_inRoutine {routine : EnclosingRoutine} {walk : Resolution → Resolution}
    (hwalk : ∀ r, SameOuter r (walk r)) : (r.inRoutine routine walk).scopes = r.scopes :=
  (hwalk ({ r with routine := routine, loopDepth := 0 } : Resolution).openScope).tail

theorem sameOuter_inRoutine {routine : EnclosingRoutine} {walk : Resolution → Resolution}
    (hwalk : ∀ r, SameOuter r (walk r)) : SameOuter r (r.inRoutine routine walk) := by
  have hinner := hwalk ({ r with routine := routine, loopDepth := 0 } : Resolution).openScope
  have hscopes : (r.inRoutine routine walk).scopes = r.scopes := scopes_inRoutine hwalk
  exact ⟨by rw [hscopes], by rw [hscopes], rfl, hinner.enclosingClass, rfl, hinner.initializing?⟩

theorem scopes_inLoop {walk : Resolution → Resolution} :
    (r.inLoop walk).scopes = (walk r.enterLoop).scopes := rfl

theorem sameOuter_inLoop {walk : Resolution → Resolution} (hwalk : ∀ r, SameOuter r (walk r)) :
    SameOuter r (r.inLoop walk) := by
  have hinner := hwalk r.enterLoop
  refine ⟨hinner.tail, hinner.length, hinner.routine, hinner.enclosingClass, ?_,
    hinner.initializing?⟩
  change (walk r.enterLoop).loopDepth - 1 = r.loopDepth
  rw [hinner.loopDepth]
  rfl

/-- Entering a class changes its kind, and the innermost scope. -/
theorem sameOuter_enterClass (name : Token) (superclass : Option Occurrence) (r : Resolution) :
    SameOuter { r with enclosingClass := (r.enterClass name superclass).enclosingClass }
      (r.enterClass name superclass) := by
  have hname := (sameOuter_declare name { r with enclosingClass := .base }).trans
    (sameOuter_define name _)
  cases superclass with
  | none => exact ⟨hname.tail, hname.length, hname.routine, rfl, hname.loopDepth,
      hname.initializing?⟩
  | some parent =>
    have hparent := hname.trans
      (sameScopes_reportIf (parent.name = name.lexeme) .inheritsFromItself parent.token _).outer
    have hread := (sameScopes_read parent (r.enterSuperclass name parent)).outer
    exact ⟨hread.tail.trans hparent.tail, hread.length.trans hparent.length,
      hread.routine.trans hparent.routine, rfl, hread.loopDepth.trans hparent.loopDepth,
      fun hnone => hread.initializing? (hparent.initializing? hnone)⟩

end Resolution

mutual

theorem Stmt.sameOuter_resolve : (s : Stmt) → (r : Resolution) → SameOuter r (s.resolve r)
  | .expression value, r => (value.sameScopes_resolve r).outer
  | .var name none, r => (sameOuter_declare name r).trans (sameOuter_define name _)
  | .var name (some value), _ =>
    ((sameOuter_declare name _).trans
      (sameOuter_inInitializer _ (fun _ => value.sameScopes_resolve _) _)).trans
      (sameOuter_define name _)
  | .block body, r => sameOuter_inScope (Stmt.sameOuter_resolveEach body _)
  | .conditional condition thenBranch none, r =>
    (condition.sameScopes_resolve r).outer.trans (thenBranch.sameOuter_resolve _)
  | .conditional condition thenBranch (some elseBranch), r =>
    ((condition.sameScopes_resolve r).outer.trans (thenBranch.sameOuter_resolve _)).trans
      (elseBranch.sameOuter_resolve _)
  | .loop condition body increment, r =>
    ((condition.sameScopes_resolve r).outer.trans
      (sameOuter_inLoop (fun _ => body.sameOuter_resolve _))).trans
      (Expr.sameScopes_resolveIn? _ increment).outer
  | .function declaration, r =>
    ((sameOuter_declare _ r).trans (sameOuter_define _ _)).trans
      (declaration.sameOuter_resolve .function _)
  | .returning _ none, r => (sameScopes_reportIf _ _ _ r).outer
  | .returning _ (some value), r =>
    ((sameScopes_reportIf _ _ _ r).trans (sameScopes_reportIf _ _ _ _)).outer.trans
      (value.sameScopes_resolve _).outer
  | .breaking _, r => (sameScopes_reportIf _ _ _ r).outer
  | .continuing _, r => (sameScopes_reportIf _ _ _ r).outer
  | .class name superclass methods, r => by
    have hbody : SameOuter (r.enterClass name superclass)
        ((r.enterClass name superclass).inClassBody superclass.isSome
          (FunctionDecl.resolveMethods methods)) :=
      sameOuter_inClassBody fun r => FunctionDecl.sameOuter_resolveMethods methods r
    have hclass := (sameOuter_enterClass name superclass r).trans hbody
    exact ⟨hclass.tail, hclass.length, hclass.routine, rfl, hclass.loopDepth,
      hclass.initializing?⟩
termination_by structural s => s

theorem Stmt.sameOuter_resolveEach :
    (ss : List Stmt) → (r : Resolution) → SameOuter r (Stmt.resolveEach ss r)
  | [], r => .refl r
  | s :: rest, r => (s.sameOuter_resolve r).trans (Stmt.sameOuter_resolveEach rest _)
termination_by structural ss => ss

theorem FunctionDecl.sameOuter_resolve (routine : EnclosingRoutine) :
    (d : FunctionDecl) → (r : Resolution) → SameOuter r (d.resolve routine r)
  | ⟨_, parameters, body⟩, _ =>
    sameOuter_inRoutine fun r =>
      (sameOuter_declareParameters parameters r).trans (Stmt.sameOuter_resolveEach body _)
termination_by structural d => d

theorem FunctionDecl.sameOuter_resolveMethods :
    (ds : List FunctionDecl) → (r : Resolution) → SameOuter r (FunctionDecl.resolveMethods ds r)
  | [], r => .refl r
  | d :: rest, r =>
    (d.sameOuter_resolve _ r).trans (FunctionDecl.sameOuter_resolveMethods rest _)
termination_by structural ds => ds

end

/-! ### Distances and errors -/

/-- What a visit without fault adds to the distances. -/
def Visit.note (distances : Distances) (v : Visit) : Distances :=
  match distance? v.state.scopes v.place.name with
  | some distance => distances.insert v.place.id distance
  | none => distances

/-- The walk has nothing to object to at a visit. -/
def Visit.Faultless (v : Visit) : Prop :=
  match v.kind with
  | .read => v.state.readFault? v.place.name = none
  | .assign => True
  | .this => v.state.enclosingClass ≠ .outside
  | .super => v.state.enclosingClass = .derived

/--
How errors and distances come about: if there are no errors at the end, there were
none at the start, no visit had a fault, and the distances are those of the visits.
-/
structure Noted (errors : List ScopeError) (distances : Distances) (errors' : List ScopeError)
    (distances' : Distances) (visits : List Visit) : Prop where
  before : errors' = [] → errors = []
  distances : errors' = [] → distances' = visits.foldl Visit.note distances
  faultless : errors' = [] → ∀ v ∈ visits, v.Faultless

/-- The walk from one state to another has the given visits. -/
abbrev Walked (r r' : Resolution) (visits : List Visit) : Prop :=
  Noted r.errors r.distances r'.errors r'.distances visits

namespace Resolution

variable {r r' r'' : Resolution} {visits visits' : List Visit}

theorem walked_refl (r : Resolution) : Walked r r [] :=
  ⟨id, fun _ => rfl, fun _ _ hv => absurd hv List.not_mem_nil⟩

theorem walked_trans (h : Walked r r' visits) (h' : Walked r' r'' visits') :
    Walked r r'' (visits ++ visits') := by
  constructor
  · intro hclean
    exact h.before (h'.before hclean)
  · intro hclean
    rw [List.foldl_append, ← h.distances (h'.before hclean)]
    exact h'.distances hclean
  · intro hclean v hv
    rcases List.mem_append.mp hv with hv | hv
    · exact h.faultless (h'.before hclean) v hv
    · exact h'.faultless hclean v hv

/-- Steps without visits can stand in front of a walk. -/
theorem walked_after (h : Walked r r' []) (h' : Walked r' r'' visits) : Walked r r'' visits :=
  walked_trans h h'

/-- Steps without visits can stand behind a walk. -/
theorem walked_before (h : Walked r r' visits) (h' : Walked r' r'' []) : Walked r r'' visits := by
  have hboth := walked_trans h h'
  rwa [List.append_nil] at hboth

theorem walked_report (cause : ScopeCause) (token : Token) (r : Resolution) (visits : List Visit) :
    Walked r (r.report cause token) visits := by
  have hdirty : (r.report cause token).errors ≠ [] := by simp [report]
  exact ⟨fun h => absurd h hdirty, fun h => absurd h hdirty, fun h => absurd h hdirty⟩

theorem walked_reportIf (condition : Bool) (cause : ScopeCause) (token : Token)
    (r : Resolution) : Walked r (r.reportIf condition cause token) [] := by
  cases condition with
  | false => exact walked_refl r
  | true => exact walked_report cause token r []

/-- A condition that is reported does not hold if there are no errors behind it. -/
theorem not_of_reportIf {condition : Bool} {cause : ScopeCause} {token : Token}
    (h : (r.reportIf condition cause token).errors = []) : condition = false := by
  cases condition with
  | false => rfl
  | true => simp [reportIf, report] at h

theorem walked_mark (name : String) (readable : Bool) (r : Resolution) :
    Walked r (r.mark name readable) [] := by
  unfold mark
  cases r.scopes with
  | nil => exact walked_refl r
  | cons scope outer => exact walked_refl r

theorem walked_declare (token : Token) (r : Resolution) : Walked r (r.declare token) [] :=
  walked_after (walked_mark _ _ r) (walked_reportIf _ _ _ _)

theorem walked_define (token : Token) (r : Resolution) : Walked r (r.define token) [] :=
  walked_mark _ _ r

theorem walked_declareParameters (parameters : List Token) (r : Resolution) :
    Walked r (r.declareParameters parameters) [] := by
  induction parameters generalizing r with
  | nil => exact walked_refl r
  | cons parameter parameters ih =>
    exact walked_after (walked_after (walked_declare parameter r) (walked_define parameter _))
      (ih _)

/-- Noting the distance at a visit without fault. -/
theorem walked_locate {v : Visit} (hfaultless : v.Faultless) :
    Walked v.state (v.state.locate v.place) [v] := by
  constructor
  · intro hclean
    unfold locate at hclean
    cases hdistance : distance? v.state.scopes v.place.name with
    | none => simpa [hdistance] using hclean
    | some distance => simpa [hdistance] using hclean
  · intro _
    simp only [List.foldl_cons, List.foldl_nil, Visit.note, locate]
    cases distance? v.state.scopes v.place.name with
    | none => rfl
    | some distance => rfl
  · intro _ u hu
    rw [List.mem_singleton.mp hu]
    exact hfaultless

theorem walked_read (place : Occurrence) (r : Resolution) :
    Walked r (r.read place) [⟨.read, place, r⟩] := by
  unfold read
  cases hfault : r.readFault? place.name with
  | none => exact walked_locate (v := ⟨.read, place, r⟩) hfault
  | some cause =>
    have hlocate := walked_locate (v := ⟨.assign, place, r.report cause place.token⟩) trivial
    have hdirty := hlocate.before
    constructor
    · intro hclean
      exact absurd (hdirty hclean) (by simp [report])
    · intro hclean
      exact absurd (hdirty hclean) (by simp [report])
    · intro hclean
      exact absurd (hdirty hclean) (by simp [report])

theorem walked_resolveThis (place : Occurrence) (r : Resolution) :
    Walked r (r.resolveThis place) [⟨.this, place, r⟩] := by
  unfold resolveThis
  cases hclass : r.enclosingClass with
  | outside => exact walked_report _ _ r _
  | base =>
    exact walked_locate (v := ⟨.this, place, r⟩) (by simp [Visit.Faultless, hclass])
  | derived =>
    exact walked_locate (v := ⟨.this, place, r⟩) (by simp [Visit.Faultless, hclass])

theorem walked_resolveSuper (place : Occurrence) (r : Resolution) :
    Walked r (r.resolveSuper place) [⟨.super, place, r⟩] := by
  unfold resolveSuper
  cases hclass : r.enclosingClass with
  | outside => exact walked_report _ _ r _
  | base => exact walked_report _ _ r _
  | derived => exact walked_locate (v := ⟨.super, place, r⟩) hclass

end Resolution

mutual

theorem Expr.walked (r : Resolution) : (e : Expr) → Walked r (e.resolve r) (e.visits r)
  | .literal _ => walked_refl r
  | .unary _ operand => operand.walked r
  | .binary left _ right | .logical left _ right =>
    walked_trans (left.walked r) (right.walked _)
  | .group inner => inner.walked r
  | .read place => walked_read place r
  | .assign place value =>
    walked_trans (value.walked r) (walked_locate (v := ⟨.assign, place, value.resolve r⟩) trivial)
  | .call callee _ arguments => walked_trans (callee.walked r) (Expr.walkedEach _ arguments)
  | .get object _ => object.walked r
  | .set object _ value => walked_trans (value.walked r) (object.walked _)
  | .this place => walked_resolveThis place r
  | .super place _ => walked_resolveSuper place r
termination_by structural e => e

theorem Expr.walkedEach (r : Resolution) :
    (es : List Expr) → Walked r (Expr.resolveEach es r) (Expr.visitsEach es r)
  | [] => walked_refl r
  | e :: rest => walked_trans (e.walked r) (Expr.walkedEach _ rest)
termination_by structural es => es

end

theorem Expr.walkedIn? (r : Resolution) (e : Option Expr) :
    Walked r (Expr.resolveIn? e r) (Expr.visitsIn? e r) := by
  cases e with
  | none => exact walked_refl r
  | some e => exact e.walked r

namespace Resolution

theorem walked_inInitializer (name : String) (value : Expr) (r : Resolution) :
    Walked r (r.inInitializer name value.resolve) (value.visits (r.enterInitializer name)) := by
  cases hscopes : r.scopes with
  | nil =>
    have hinner := value.walked { r with initializing? := some name }
    simpa only [inInitializer, enterInitializer, hscopes] using hinner
  | cons scope outer =>
    simpa only [inInitializer, enterInitializer, hscopes] using value.walked r

theorem walked_enterClass (name : Token) (superclass : Option Occurrence) (r : Resolution) :
    Walked r (r.enterClass name superclass) (Occurrence.visitsIn? name superclass r) := by
  have hname := walked_after (walked_declare name { r with enclosingClass := .base })
    (walked_define name _)
  cases superclass with
  | none => exact hname
  | some parent =>
    have hparent := walked_after hname
      (walked_reportIf (parent.name = name.lexeme) .inheritsFromItself parent.token _)
    exact walked_after hparent (walked_read parent (r.enterSuperclass name parent))

theorem walked_inClassBody {derived : Bool} {walk : Resolution → Resolution}
    {visits : Resolution → List Visit} (hwalk : ∀ r, Walked r (walk r) (visits r))
    (r : Resolution) :
    Walked r (r.inClassBody derived walk) (visits (r.enterClassBody derived)) := by
  cases derived with
  | false => exact walked_after (walked_mark "this" true r.openScope) (hwalk _)
  | true =>
    have hsuper := walked_mark "super" true r.openScope
    have hthis := walked_mark "this" true (r.openScope.mark "super" true).openScope
    exact walked_after (walked_after hsuper hthis) (hwalk _)

end Resolution

mutual

theorem Stmt.walked : (s : Stmt) → (r : Resolution) → Walked r (s.resolve r) (s.visits r)
  | .expression value, r => value.walked r
  | .var name none, r => walked_after (walked_declare name r) (walked_define name _)
  | .var name (some value), r =>
    walked_before (walked_after (walked_declare name r) (walked_inInitializer _ value _))
      (walked_define name _)
  | .block body, r => Stmt.walkedEach body r.openScope
  | .conditional condition thenBranch none, r =>
    walked_trans (condition.walked r) (thenBranch.walked _)
  | .conditional condition thenBranch (some elseBranch), r =>
    walked_trans (walked_trans (condition.walked r) (thenBranch.walked _)) (elseBranch.walked _)
  | .loop condition body increment, r =>
    walked_trans (walked_trans (condition.walked r) (body.walked (condition.resolve r).enterLoop))
      (Expr.walkedIn? ((condition.resolve r).inLoop body.resolve) increment)
  | .function declaration, r =>
    walked_after (walked_after (walked_declare declaration.name r)
      (walked_define declaration.name _)) (declaration.walked .function _)
  | .returning _ none, r => walked_reportIf _ _ _ r
  | .returning _ (some value), r =>
    walked_after (walked_after (walked_reportIf _ _ _ r) (walked_reportIf _ _ _ _))
      (value.walked _)
  | .breaking _, r => walked_reportIf _ _ _ r
  | .continuing _, r => walked_reportIf _ _ _ r
  | .class name superclass methods, r =>
    walked_trans (walked_enterClass name superclass r)
      (walked_inClassBody (fun r => FunctionDecl.walkedMethods methods r) _)
termination_by structural s => s

theorem Stmt.walkedEach :
    (ss : List Stmt) → (r : Resolution) → Walked r (Stmt.resolveEach ss r) (Stmt.visitsEach ss r)
  | [], r => walked_refl r
  | s :: rest, r => walked_trans (s.walked r) (Stmt.walkedEach rest _)
termination_by structural ss => ss

theorem FunctionDecl.walked (routine : EnclosingRoutine) :
    (d : FunctionDecl) → (r : Resolution) → Walked r (d.resolve routine r) (d.visits routine r)
  | ⟨_, parameters, body⟩, r =>
    walked_after (walked_declareParameters parameters
      ({ r with routine := routine, loopDepth := 0 } : Resolution).openScope)
      (Stmt.walkedEach body _)
termination_by structural d => d

theorem FunctionDecl.walkedMethods :
    (ds : List FunctionDecl) → (r : Resolution) →
      Walked r (FunctionDecl.resolveMethods ds r) (FunctionDecl.visitsMethods ds r)
  | [], r => walked_refl r
  | d :: rest, r => walked_trans (d.walked _ r) (FunctionDecl.walkedMethods rest _)
termination_by structural ds => ds

end

end Lox
