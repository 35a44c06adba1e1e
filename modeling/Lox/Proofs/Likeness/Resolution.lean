import Lox.Proofs.Likeness.Code
import Lox.Proofs.Resolution.Distances

/-!
# Resolutions that look alike

Trees that look alike are resolved alike: the same errors are noted in the same order, and
occurrences that correspond lie at the same distance.  All that has to be known for it is
that occurrences which correspond, where they are visited, find their names in scopes that
correspond.

Some names can be set apart as fresh: no scope declares one of them, so that a scope can
take its names to them.
-/

namespace Lox

open Resolution

/-- Scopes that declare the same names, up to the renamings of the surroundings. -/
inductive ScopesLike (fresh : String → Prop) : Surroundings → List Scope → List Scope → Prop where
  | nil {Γ : Surroundings} : (∀ d, Γ d = .same) → ScopesLike fresh Γ [] []
  | cons {Γ : Surroundings} {scope scope' : Scope} {outer outer' : List Scope} :
      (∀ name, fresh name → scope.find? name = none) →
      (∀ name, scope'.find? (Γ 0 name) = scope.find? name) →
      ScopesLike fresh (fun d => Γ (d + 1)) outer outer' →
      ScopesLike fresh Γ (scope :: outer) (scope' :: outer')

/-- States of two resolutions; what was noted of occurrences is not compared. -/
structure ResolutionLike (fresh : String → Prop) (Γ : Surroundings) (r r' : Resolution) :
    Prop where
  scopes : ScopesLike fresh Γ r.scopes r'.scopes
  errors : r'.errors.map ScopeError.cause = r.errors.map ScopeError.cause
  routine : r'.routine = r.routine
  enclosingClass : r'.enclosingClass = r.enclosingClass
  loopDepth : r'.loopDepth = r.loopDepth
  initializing? : r'.initializing? = r.initializing?

/-- The names of occurrences are found in scopes that correspond. -/
structure NameLike (Γ : Surroundings) (scopes scopes' : List Scope) (name name' : String) :
    Prop where
  distance : distance? scopes' name' = distance? scopes name
  near : ∀ d, distance? scopes name = some d → name' = Γ d name
  far : distance? scopes name = none → name' = name

/-- What a likeness has to say of these visits so that code that looks alike is resolved alike. -/
structure Likeness.Static (K : Likeness) (fresh : String → Prop) (V : Visit → Prop) : Prop where
  token : ∀ t t', K.token t t' → t'.lexeme = t.lexeme ∧ ¬ fresh t.lexeme
  binder : ∀ σ t t', K.binder σ t t' → t'.lexeme = σ t.lexeme ∧ ¬ fresh t.lexeme
  keywords : ¬ fresh "this" ∧ ¬ fresh "super"
  place : ∀ Γ kind p p' r scopes', V ⟨kind, p, r⟩ → ScopesLike fresh Γ r.scopes scopes' →
    K.place Γ p p' → NameLike Γ r.scopes scopes' p.name p'.name

/-- Visits of occurrences that correspond, at the same distance. -/
structure VisitLike (K : Likeness) (v v' : Visit) : Prop where
  kind : v'.kind = v.kind
  place : ∃ Γ, K.place Γ v.place v'.place
  distance : v'.distance? = v.distance?

/-- The walks through trees that look alike: where they end, and what they visit. -/
structure WalkLike (K : Likeness) (fresh : String → Prop) (Γ : Surroundings) (r r' : Resolution)
    (visits visits' : List Visit) : Prop where
  ends : ResolutionLike fresh Γ r r'
  visits : List.Forall₂ (VisitLike K) visits visits'

variable {K : Likeness} {fresh : String → Prop} {V : Visit → Prop} {Γ : Surroundings}
  {r r' : Resolution}

/-! ### Scopes -/

theorem ResolutionLike.openScope (hr : ResolutionLike fresh Γ r r') (σ : Renaming) :
    ResolutionLike fresh (Γ.enter σ) r.openScope r'.openScope :=
  ⟨.cons (fun _ _ => rfl) (fun _ => rfl) hr.scopes, hr.errors, hr.routine, hr.enclosingClass,
    hr.loopDepth, hr.initializing?⟩

theorem ResolutionLike.closeScope {σ : Renaming} (hr : ResolutionLike fresh (Γ.enter σ) r r') :
    ResolutionLike fresh Γ r.closeScope r'.closeScope := by
  refine ⟨?_, hr.errors, hr.routine, hr.enclosingClass, hr.loopDepth, hr.initializing?⟩
  have hscopes := hr.scopes
  unfold Resolution.closeScope
  generalize r.scopes = scopes at hscopes
  generalize r'.scopes = scopes' at hscopes
  cases hscopes with
  | nil hsame => exact .nil fun d => hsame (d + 1)
  | cons _ _ houter => exact houter

theorem ResolutionLike.mark (hr : ResolutionLike fresh Γ r r') {name name' : String}
    (hname : name' = Γ 0 name) (hfresh : ¬ fresh name) (readable : Bool) :
    ResolutionLike fresh Γ (r.mark name readable) (r'.mark name' readable) := by
  obtain ⟨hscopes, herrors, hroutine, hclass, hloop, hinit⟩ := hr
  unfold Resolution.mark
  generalize hs : r.scopes = scopes at hscopes
  generalize hs' : r'.scopes = scopes' at hscopes
  cases hscopes with
  | nil hsame => exact ⟨by rw [hs, hs']; exact .nil hsame, herrors, hroutine, hclass, hloop, hinit⟩
  | cons hfree hfind houter =>
    refine ⟨.cons ?_ ?_ houter, herrors, hroutine, hclass, hloop, hinit⟩
    · intro other hother
      have hne : other ≠ name := fun heq => hfresh (heq ▸ hother)
      rw [Bindings.find?_insert, if_neg hne]
      exact hfree other hother
    · intro other
      rw [hname, Bindings.find?_insert, Bindings.find?_insert, hfind]
      by_cases hsame : other = name
      · rw [if_pos hsame, if_pos (congrArg (Γ 0) hsame)]
      · rw [if_neg hsame, if_neg fun heq => hsame ((Γ 0).injective _ _ heq)]

theorem ResolutionLike.declaresInnermost (hr : ResolutionLike fresh Γ r r') {name name' : String}
    (hname : name' = Γ 0 name) : r'.declaresInnermost name' = r.declaresInnermost name := by
  have hscopes := hr.scopes
  unfold Resolution.declaresInnermost
  generalize r.scopes = scopes at hscopes
  generalize r'.scopes = scopes' at hscopes
  cases hscopes with
  | nil _ => rfl
  | cons _ hfind _ =>
    change Option.isSome _ = Option.isSome _
    rw [hname, hfind]

/-! ### Errors -/

theorem ResolutionLike.reportIf (hr : ResolutionLike fresh Γ r r') {condition condition' : Bool}
    (hcondition : condition' = condition) (cause : ScopeCause) (t t' : Token) :
    ResolutionLike fresh Γ (r.reportIf condition cause t) (r'.reportIf condition' cause t') := by
  subst hcondition
  unfold Resolution.reportIf
  split
  · refine ⟨hr.scopes, ?_, hr.routine, hr.enclosingClass, hr.loopDepth, hr.initializing?⟩
    unfold Resolution.report
    rw [List.map_append, List.map_append, hr.errors]
    rfl
  · exact hr

theorem ResolutionLike.report (hr : ResolutionLike fresh Γ r r') (cause : ScopeCause)
    (t t' : Token) : ResolutionLike fresh Γ (r.report cause t) (r'.report cause t') :=
  hr.reportIf (rfl : true = true) cause t t'

/-! ### Declarations -/

theorem ResolutionLike.declare (hr : ResolutionLike fresh Γ r r') {t t' : Token}
    (ht : t'.lexeme = Γ 0 t.lexeme) (hfresh : ¬ fresh t.lexeme) :
    ResolutionLike fresh Γ (r.declare t) (r'.declare t') :=
  (hr.mark ht hfresh false).reportIf (hr.declaresInnermost ht) _ _ _

theorem ResolutionLike.define (hr : ResolutionLike fresh Γ r r') {t t' : Token}
    (ht : t'.lexeme = Γ 0 t.lexeme) (hfresh : ¬ fresh t.lexeme) :
    ResolutionLike fresh Γ (r.define t) (r'.define t') :=
  hr.mark ht hfresh true

theorem ResolutionLike.declareParameters (hK : K.Static fresh V) (hr : ResolutionLike fresh Γ r r')
    {parameters parameters' : List Token} (h : List.Forall₂ (K.binder (Γ 0)) parameters parameters') :
    ResolutionLike fresh Γ (r.declareParameters parameters) (r'.declareParameters parameters') := by
  induction h generalizing r r' with
  | nil => exact hr
  | cons hbinder _ ih =>
    obtain ⟨ht, hfresh⟩ := hK.binder _ _ _ hbinder
    exact ih ((hr.declare ht hfresh).define ht hfresh)

/-! ### Occurrences -/

theorem ResolutionLike.locate (hr : ResolutionLike fresh Γ r r') (p p' : Occurrence) :
    ResolutionLike fresh Γ (r.locate p) (r'.locate p') := by
  have hkeeps : ∀ (r : Resolution) (p : Occurrence), ∃ distances,
      r.locate p = { r with distances := distances } := by
    intro r p
    unfold Resolution.locate
    split
    · exact ⟨_, rfl⟩
    · exact ⟨r.distances, rfl⟩
  obtain ⟨distances, hleft⟩ := hkeeps r p
  obtain ⟨distances', hright⟩ := hkeeps r' p'
  rw [hleft, hright]
  exact ⟨hr.scopes, hr.errors, hr.routine, hr.enclosingClass, hr.loopDepth, hr.initializing?⟩

theorem distance?_eq_zero_iff (scope : Scope) (outer : List Scope) (name : String) :
    distance? (scope :: outer) name = some 0 ↔ (scope.find? name).isSome = true := by
  unfold distance?
  rw [List.findIdx?_cons]
  change (if (scope.find? name).isSome = true then _ else _) = _ ↔ _
  split
  · simp [*]
  · simp [*]

section

variable {scope scope' : Scope} {outer outer' : List Scope} {name name' : String}

/-- The innermost scope knows the name of an occurrence in the same way. -/
theorem NameLike.find?_innermost (h : NameLike Γ (scope :: outer) (scope' :: outer') name name')
    (hfind : ∀ other, scope'.find? (Γ 0 other) = scope.find? other) :
    scope'.find? name' = scope.find? name := by
  cases hfound : scope.find? name with
  | some b =>
    have hd := (distance?_eq_zero_iff scope outer name).mpr (by rw [hfound]; rfl)
    rw [h.near 0 hd, hfind, hfound]
  | none =>
    cases hfound' : scope'.find? name' with
    | none => rfl
    | some b =>
      have hd := (distance?_eq_zero_iff scope' outer' name').mpr (by rw [hfound']; rfl)
      rw [h.distance, distance?_eq_zero_iff, hfound] at hd
      cases hd

/-- An occurrence is a name that the innermost scope declares, if its counterpart is that name. -/
theorem NameLike.eq_iff {scopes scopes' : List Scope} (h : NameLike Γ scopes scopes' name name')
    (hscopes : ScopesLike fresh Γ scopes scopes') {declared : String}
    (hsame : Γ 0 declared = declared)
    (hdeclared : ∀ scope outer, scopes = scope :: outer → (scope.find? declared).isSome = true) :
    name' = declared ↔ name = declared := by
  cases hscopes with
  | nil _ => rw [h.far rfl]
  | @cons _ scope scope' outer outer' _ hfind _ =>
    constructor
    · rintro rfl
      have hfound : (scope.find? name).isSome = true := by
        rw [← h.find?_innermost hfind, ← hsame, hfind]
        exact hdeclared scope outer rfl
      have hnear := h.near 0 ((distance?_eq_zero_iff scope outer name).mpr hfound)
      exact (Γ 0).injective _ _ (hnear.symm.trans hsame.symm)
    · rintro rfl
      have hfound := hdeclared scope outer rfl
      exact (h.near 0 ((distance?_eq_zero_iff scope outer name).mpr hfound)).trans hsame

end

theorem ResolutionLike.readFault? (hr : ResolutionLike fresh Γ r r') {name name' : String}
    (hname : NameLike Γ r.scopes r'.scopes name name') :
    r'.readFault? name' = r.readFault? name := by
  have hscopes := hr.scopes
  unfold Resolution.readFault?
  rw [hr.initializing?]
  generalize r.scopes = scopes at hscopes hname
  generalize r'.scopes = scopes' at hscopes hname
  cases hscopes with
  | nil _ => simp only [hname.far rfl]
  | cons _ hfind _ => simp only [hname.find?_innermost hfind]

theorem ResolutionLike.read (hr : ResolutionLike fresh Γ r r') {p p' : Occurrence}
    (hname : NameLike Γ r.scopes r'.scopes p.name p'.name) :
    ResolutionLike fresh Γ (r.read p) (r'.read p') := by
  unfold Resolution.read
  rw [hr.readFault? hname]
  split
  · exact (hr.report _ _ _).locate p p'
  · exact hr.locate p p'

theorem ResolutionLike.resolveThis (hr : ResolutionLike fresh Γ r r') (p p' : Occurrence) :
    ResolutionLike fresh Γ (r.resolveThis p) (r'.resolveThis p') := by
  unfold Resolution.resolveThis
  rw [hr.enclosingClass]
  cases r.enclosingClass with
  | outside => exact hr.report _ _ _
  | base => exact hr.locate p p'
  | derived => exact hr.locate p p'

theorem ResolutionLike.resolveSuper (hr : ResolutionLike fresh Γ r r') (p p' : Occurrence) :
    ResolutionLike fresh Γ (r.resolveSuper p) (r'.resolveSuper p') := by
  unfold Resolution.resolveSuper
  rw [hr.enclosingClass]
  cases r.enclosingClass with
  | outside => exact hr.report _ _ _
  | base => exact hr.report _ _ _
  | derived => exact hr.locate p p'

/-! ### Expressions -/

namespace WalkLike

theorem none (hr : ResolutionLike fresh Γ r r') : WalkLike K fresh Γ r r' [] [] := ⟨hr, .nil⟩

/-- The visit of an occurrence, from where the walk goes on. -/
theorem visit (hK : K.Static fresh V) {kind : OccurrenceKind} {p p' : Occurrence}
    (hplace : K.place Γ p p') (hV : V ⟨kind, p, r⟩) (hr : ResolutionLike fresh Γ r r')
    {r₁ r₁' : Resolution}
    (hgoes : NameLike Γ r.scopes r'.scopes p.name p'.name → ResolutionLike fresh Γ r₁ r₁') :
    WalkLike K fresh Γ r₁ r₁' [⟨kind, p, r⟩] [⟨kind, p', r'⟩] := by
  have hname := hK.place _ _ _ _ _ _ hV hr.scopes hplace
  exact ⟨hgoes hname, .cons ⟨rfl, ⟨Γ, hplace⟩, hname.distance⟩ .nil⟩

theorem andThen {r₁ r₁' r₂ r₂' : Resolution} {visits₁ visits₁' visits₂ visits₂' : List Visit}
    (h₁ : WalkLike K fresh Γ r₁ r₁' visits₁ visits₁')
    (h₂ : WalkLike K fresh Γ r₂ r₂' visits₂ visits₂') :
    WalkLike K fresh Γ r₂ r₂' (visits₁ ++ visits₂) (visits₁' ++ visits₂') :=
  ⟨h₂.ends, List.rel_append h₁.visits h₂.visits⟩

end WalkLike

abbrev Visit.AllOf (V : Visit → Prop) (visits : List Visit) : Prop := ∀ v ∈ visits, V v

theorem Visit.allOf_append {left right : List Visit} :
    AllOf V (left ++ right) ↔ AllOf V left ∧ AllOf V right :=
  List.forall_mem_append

theorem Visit.allOf_one {v : Visit} (h : AllOf V [v]) : V v := h v List.mem_cons_self

open Visit

mutual

theorem ExprLike.walk (hK : K.Static fresh V) {Γ : Surroundings} {r r' : Resolution} {e e' : Expr}
    (h : ExprLike K Γ e e') (hr : ResolutionLike fresh Γ r r') (hV : AllOf V (e.visits r)) :
    WalkLike K fresh Γ (e.resolve r) (e'.resolve r') (e.visits r) (e'.visits r') := by
  cases h with
  | literal => exact .none hr
  | unary _ he => exact he.walk hK hr hV
  | binary hleft _ hright =>
    have hV := allOf_append.mp hV
    have hleft' := hleft.walk hK hr hV.1
    exact hleft'.andThen (hright.walk hK hleft'.ends hV.2)
  | logical hleft _ hright =>
    have hV := allOf_append.mp hV
    have hleft' := hleft.walk hK hr hV.1
    exact hleft'.andThen (hright.walk hK hleft'.ends hV.2)
  | group he => exact he.walk hK hr hV
  | read hplace => exact .visit hK hplace (allOf_one hV) hr hr.read
  | assign hplace hvalue =>
    have hV := allOf_append.mp hV
    have hvalue' := hvalue.walk hK hr hV.1
    exact hvalue'.andThen (.visit hK hplace (allOf_one hV.2) hvalue'.ends
      fun _ => hvalue'.ends.locate _ _)
  | call hcallee _ harguments =>
    have hV := allOf_append.mp hV
    have hcallee' := hcallee.walk hK hr hV.1
    exact hcallee'.andThen (harguments.walk hK hcallee'.ends hV.2)
  | get hobject _ => exact hobject.walk hK hr hV
  | set hobject _ hvalue =>
    have hV := allOf_append.mp hV
    have hvalue' := hvalue.walk hK hr hV.1
    exact hvalue'.andThen (hobject.walk hK hvalue'.ends hV.2)
  | this hplace => exact .visit hK hplace (allOf_one hV) hr fun _ => hr.resolveThis _ _
  | super hplace _ => exact .visit hK hplace (allOf_one hV) hr fun _ => hr.resolveSuper _ _

theorem ExprEachLike.walk (hK : K.Static fresh V) {Γ : Surroundings} {r r' : Resolution}
    {es es' : List Expr} (h : ExprEachLike K Γ es es') (hr : ResolutionLike fresh Γ r r')
    (hV : AllOf V (Expr.visitsEach es r)) :
    WalkLike K fresh Γ (Expr.resolveEach es r) (Expr.resolveEach es' r') (Expr.visitsEach es r)
      (Expr.visitsEach es' r') := by
  cases h with
  | nil => exact .none hr
  | cons he hrest =>
    have hV := allOf_append.mp hV
    have he' := he.walk hK hr hV.1
    exact he'.andThen (hrest.walk hK he'.ends hV.2)

end

theorem ExprIn?Like.walk (hK : K.Static fresh V) {e e' : Option Expr} (h : ExprIn?Like K Γ e e')
    (hr : ResolutionLike fresh Γ r r') (hV : AllOf V (Expr.visitsIn? e r)) :
    WalkLike K fresh Γ (Expr.resolveIn? e r) (Expr.resolveIn? e' r') (Expr.visitsIn? e r)
      (Expr.visitsIn? e' r') := by
  cases h with
  | none => exact .none hr
  | some he => exact he.walk hK hr hV

/-! ### Surroundings of statements -/

theorem ResolutionLike.enterRoutine (hK : K.Static fresh V) (hr : ResolutionLike fresh Γ r r')
    (routine : EnclosingRoutine) {σ : Renaming} {parameters parameters' : List Token}
    (h : List.Forall₂ (K.binder σ) parameters parameters') :
    ResolutionLike fresh (Γ.enter σ) (r.enterRoutine routine parameters)
      (r'.enterRoutine routine parameters') := by
  have hroutine : ResolutionLike fresh Γ { r with routine := routine, loopDepth := 0 }
      { r' with routine := routine, loopDepth := 0 } :=
    ⟨hr.scopes, hr.errors, rfl, hr.enclosingClass, rfl, hr.initializing?⟩
  exact (hroutine.openScope σ).declareParameters hK h

/-- Behind a routine, the surroundings are those before it. -/
theorem ResolutionLike.leaveRoutine (hr : ResolutionLike fresh Γ r r') {σ : Renaming}
    {inner inner' : Resolution} (h : ResolutionLike fresh (Γ.enter σ) inner inner') :
    ResolutionLike fresh Γ
      { inner.closeScope with routine := r.routine, loopDepth := r.loopDepth }
      { inner'.closeScope with routine := r'.routine, loopDepth := r'.loopDepth } := by
  have hclosed := h.closeScope
  exact ⟨hclosed.scopes, hclosed.errors, hr.routine, hclosed.enclosingClass, hr.loopDepth,
    hclosed.initializing?⟩

theorem ResolutionLike.setLoopDepth (hr : ResolutionLike fresh Γ r r') {n n' : Nat} (hn : n' = n) :
    ResolutionLike fresh Γ { r with loopDepth := n } { r' with loopDepth := n' } :=
  ⟨hr.scopes, hr.errors, hr.routine, hr.enclosingClass, hn, hr.initializing?⟩

theorem ResolutionLike.setEnclosingClass (hr : ResolutionLike fresh Γ r r')
    {c c' : EnclosingClass} (hc : c' = c) :
    ResolutionLike fresh Γ { r with enclosingClass := c } { r' with enclosingClass := c' } :=
  ⟨hr.scopes, hr.errors, hr.routine, hc, hr.loopDepth, hr.initializing?⟩

theorem ResolutionLike.setInitializing (hr : ResolutionLike fresh Γ r r') (name : Option String) :
    ResolutionLike fresh Γ { r with initializing? := name } { r' with initializing? := name } :=
  ⟨hr.scopes, hr.errors, hr.routine, hr.enclosingClass, hr.loopDepth, rfl⟩

/-- The initializer of a variable; at the top level nothing is renamed. -/
theorem ResolutionLike.inInitializer (hr : ResolutionLike fresh Γ r r') {name name' : String}
    (hname : name' = Γ 0 name) {walk walk' : Resolution → Resolution}
    {visits visits' : Resolution → List Visit}
    (hwalk : ∀ r r', ResolutionLike fresh Γ r r' → AllOf V (visits r) →
      WalkLike K fresh Γ (walk r) (walk' r') (visits r) (visits' r'))
    (hV : AllOf V (visits (r.enterInitializer name))) :
    WalkLike K fresh Γ (r.inInitializer name walk) (r'.inInitializer name' walk')
      (visits (r.enterInitializer name)) (visits' (r'.enterInitializer name')) := by
  have hscopes := hr.scopes
  cases hs : r.scopes with
  -- At the top level the walk of the initializer is marked, by names that are the same there.
  | nil =>
    rw [hs] at hscopes
    cases hs' : r'.scopes with
    | cons _ _ =>
      rw [hs'] at hscopes
      cases hscopes
    | nil =>
      rw [hs'] at hscopes
      cases hscopes with
      | nil hsame =>
        have hglobal : name' = name := by rw [hname, hsame 0, Renaming.same_apply]
        subst hglobal
        simp only [Resolution.inInitializer, Resolution.enterInitializer, hs, hs'] at hV ⊢
        have hset := hr.setInitializing (some name')
        rw [hs, hs'] at hset
        have hinner := hwalk _ _ hset hV
        exact ⟨hinner.ends.setInitializing none, hinner.visits⟩
  -- In a scope nothing is marked.
  | cons scope outer =>
    rw [hs] at hscopes
    cases hs' : r'.scopes with
    | nil =>
      rw [hs'] at hscopes
      cases hscopes
    | cons scope' outer' =>
      simp only [Resolution.inInitializer, Resolution.enterInitializer, hs, hs'] at hV ⊢
      exact hwalk r r' hr hV

theorem declared_innermost (t : Token) (r : Resolution) :
    ∀ scope outer, ((r.declare t).define t).scopes = scope :: outer →
      (scope.find? t.lexeme).isSome = true := by
  intro scope outer hscopes
  rw [Resolution.define, Resolution.mark] at hscopes
  split at hscopes
  · rename_i hnil
    rw [hnil] at hscopes
    cases hscopes
  · cases hscopes
    rw [Bindings.find?_insert, if_pos rfl]
    rfl

section

variable {name name' : Token}

/-- The name of a class, which no scope renames. -/
theorem ResolutionLike.nameClass (hr : ResolutionLike fresh Γ r r')
    (hname : name'.lexeme = name.lexeme) (hfresh : ¬ fresh name.lexeme)
    (hsame : Γ 0 name.lexeme = name.lexeme) :
    ResolutionLike fresh Γ ((({ r with enclosingClass := .base } : Resolution).declare name).define name)
      ((({ r' with enclosingClass := .base } : Resolution).declare name').define name') := by
  have hbinder : name'.lexeme = Γ 0 name.lexeme := hname.trans hsame.symm
  have hbase : ResolutionLike fresh Γ { r with enclosingClass := .base }
      { r' with enclosingClass := .base } := hr.setEnclosingClass rfl
  exact (hbase.declare hbinder hfresh).define hbinder hfresh

/-- The name and the superclass of a class. -/
theorem ResolutionLike.enterClass (hK : K.Static fresh V) (hr : ResolutionLike fresh Γ r r')
    (hname : name'.lexeme = name.lexeme) (hfresh : ¬ fresh name.lexeme)
    (hsame : Γ 0 name.lexeme = name.lexeme) {superclass superclass' : Option Occurrence}
    (hplace : Option.Rel (K.place Γ) superclass superclass')
    (hV : AllOf V (Occurrence.visitsIn? name superclass r)) :
    WalkLike K fresh Γ (r.enterClass name superclass) (r'.enterClass name' superclass')
      (Occurrence.visitsIn? name superclass r) (Occurrence.visitsIn? name' superclass' r') := by
  have hnamed := hr.nameClass hname hfresh hsame
  cases hplace with
  | none => exact .none hnamed
  | @some parent parent' hplace =>
    have hvisit : V ⟨.read, parent, r.enterSuperclass name parent⟩ := allOf_one hV
    have hscopes : (r.enterSuperclass name parent).scopes =
        ((({ r with enclosingClass := .base } : Resolution).declare name).define name).scopes :=
      (sameScopes_reportIf _ _ _ _).scopes
    -- Whether the class inherits from itself is seen from the scopes, before it is noted.
    have hlike := hK.place _ _ _ _ _ _ hvisit (hscopes ▸ hnamed.scopes) hplace
    rw [hscopes] at hlike
    have hself := hlike.eq_iff hnamed.scopes hsame (declared_innermost name _)
    have hcondition : decide (parent'.name = name'.lexeme) = decide (parent.name = name.lexeme) := by
      rw [hname]
      exact decide_eq_decide.mpr hself
    have hentered : ResolutionLike fresh Γ (r.enterSuperclass name parent)
        (r'.enterSuperclass name' parent') :=
      (hnamed.reportIf hcondition _ _ _).setEnclosingClass rfl
    exact .visit hK hplace hvisit hentered hentered.read

end

/-- The scopes around the methods of a class are not renamed. -/
theorem ResolutionLike.inClassBody (hK : K.Static fresh V) (hr : ResolutionLike fresh Γ r r')
    (derived : Bool) {walk walk' : Resolution → Resolution} {visits visits' : Resolution → List Visit}
    (hwalk : ∀ r r', ResolutionLike fresh (Γ.enterClass derived) r r' → AllOf V (visits r) →
      WalkLike K fresh (Γ.enterClass derived) (walk r) (walk' r') (visits r) (visits' r'))
    (hV : AllOf V (visits (r.enterClassBody derived))) :
    WalkLike K fresh Γ (r.inClassBody derived walk) (r'.inClassBody derived walk')
      (visits (r.enterClassBody derived)) (visits' (r'.enterClassBody derived)) := by
  cases derived with
  | false =>
    have hthis := (hr.openScope .same).mark (Renaming.same_apply "this").symm hK.keywords.1 true
    have hbody := hwalk _ _ hthis hV
    exact ⟨hbody.ends.closeScope, hbody.visits⟩
  | true =>
    have hsuper := (hr.openScope .same).mark (Renaming.same_apply "super").symm hK.keywords.2 true
    have hthis := (hsuper.openScope .same).mark (Renaming.same_apply "this").symm hK.keywords.1 true
    have hbody := hwalk _ _ hthis hV
    exact ⟨hbody.ends.closeScope.closeScope, hbody.visits⟩

/-! ### Statements -/

mutual

theorem StmtLike.walk (hK : K.Static fresh V) {Γ : Surroundings} {r r' : Resolution} {s s' : Stmt}
    (h : StmtLike K Γ s s') (hr : ResolutionLike fresh Γ r r') (hV : AllOf V (s.visits r)) :
    WalkLike K fresh Γ (s.resolve r) (s'.resolve r') (s.visits r) (s'.visits r') := by
  cases h with
  | expression he => exact he.walk hK hr hV
  -- The name is declared before its initializer is walked and defined behind it.
  | var hbinder hvalue =>
    obtain ⟨hname, hfresh⟩ := hK.binder _ _ _ hbinder
    cases hvalue with
    | none => exact .none ((hr.declare hname hfresh).define hname hfresh)
    | some hvalue =>
      have hinner := (hr.declare hname hfresh).inInitializer hname
        (fun _ _ hr hV => hvalue.walk hK hr hV) hV
      exact ⟨hinner.ends.define hname hfresh, hinner.visits⟩
  -- A block walks its statements in a scope of its own.
  | @block _ σ _ _ _ hbody =>
    have hinner := hbody.walk hK (hr.openScope σ) hV
    exact ⟨hinner.ends.closeScope, hinner.visits⟩
  -- The walks of the parts follow each other, each from where the one before ends.
  | conditional hcondition hthen =>
    have hV := allOf_append.mp hV
    have hcondition' := hcondition.walk hK hr hV.1
    exact hcondition'.andThen (hthen.walk hK hcondition'.ends hV.2)
  | alternative hcondition hthen helse =>
    obtain ⟨hbefore, hV₃⟩ := allOf_append.mp hV
    obtain ⟨hV₁, hV₂⟩ := allOf_append.mp hbefore
    have hcondition' := hcondition.walk hK hr hV₁
    have hthen' := hcondition'.andThen (hthen.walk hK hcondition'.ends hV₂)
    exact hthen'.andThen (helse.walk hK hthen'.ends hV₃)
  | loop hcondition hbody hincrement =>
    obtain ⟨hbefore, hV₃⟩ := allOf_append.mp hV
    obtain ⟨hV₁, hV₂⟩ := allOf_append.mp hbefore
    have hcondition' := hcondition.walk hK hr hV₁
    -- The body stands one loop deeper, the increment no longer.
    have hentered := hcondition'.ends.setLoopDepth (congrArg (· + 1) hcondition'.ends.loopDepth)
    have hbody' := hbody.walk hK hentered hV₂
    have hleft := hbody'.ends.setLoopDepth (congrArg (· - 1) hbody'.ends.loopDepth)
    have hloop := hcondition'.andThen (WalkLike.mk hleft hbody'.visits)
    exact hloop.andThen (ExprIn?Like.walk hK hincrement hloop.ends hV₃)
  -- A function is defined before its body is walked, so that it can call itself.
  | function hsame hd =>
    obtain ⟨hname, hfresh⟩ := hK.token _ _ hd.name
    have hbinder := hname.trans hsame.symm
    exact hd.walk hK .function ((hr.declare hbinder hfresh).define hbinder hfresh) hV
  | @returning _ keyword keyword' _ _ _ hvalue =>
    -- Both complaints of a `return` depend on the routine alone, which both walks agree on.
    have hlevel := hr.reportIf (congrArg (fun routine => decide (routine = .topLevel)) hr.routine)
      .returnAtTopLevel keyword keyword'
    cases hvalue with
    | none => exact .none hlevel
    | some hvalue =>
      have hinit := hlevel.reportIf
        (congrArg (fun routine => decide (routine = .initializer)) hlevel.routine)
        .returnValueFromInitializer keyword keyword'
      exact hvalue.walk hK hinit hV
  -- A jump is in place inside a loop, and both walks are as deep in loops.
  | breaking _ =>
    exact .none (hr.reportIf (congrArg (fun depth => decide (depth = 0)) hr.loopDepth) _ _ _)
  | continuing _ =>
    exact .none (hr.reportIf (congrArg (fun depth => decide (depth = 0)) hr.loopDepth) _ _ _)
  | @«class» _ _ _ superclass superclass' _ _ hsame hnameLike hplace hmethods =>
    obtain ⟨hV₁, hV₂⟩ := allOf_append.mp hV
    obtain ⟨hname, hfresh⟩ := hK.token _ _ hnameLike
    have hentered := hr.enterClass hK hname hfresh hsame hplace hV₁
    -- Whether a scope for `super` is opened depends on whether there is a superclass.
    have hsome : superclass'.isSome = superclass.isSome := by
      cases hplace <;> rfl
    have hbody := hentered.ends.inClassBody hK superclass.isSome
      (fun _ _ hr hV => hmethods.walk hK hr hV) hV₂
    have hall := hentered.andThen hbody
    rw [Stmt.resolve, Stmt.resolve, Stmt.visits, Stmt.visits, hsome]
    exact ⟨hall.ends.setEnclosingClass hr.enclosingClass, hall.visits⟩

theorem StmtEachLike.walk (hK : K.Static fresh V) {Γ : Surroundings} {r r' : Resolution}
    {ss ss' : List Stmt} (h : StmtEachLike K Γ ss ss') (hr : ResolutionLike fresh Γ r r')
    (hV : AllOf V (Stmt.visitsEach ss r)) :
    WalkLike K fresh Γ (Stmt.resolveEach ss r) (Stmt.resolveEach ss' r') (Stmt.visitsEach ss r)
      (Stmt.visitsEach ss' r') := by
  cases h with
  | nil => exact .none hr
  | cons hs hrest =>
    have hV := allOf_append.mp hV
    have hs' := hs.walk hK hr hV.1
    exact hs'.andThen (hrest.walk hK hs'.ends hV.2)

theorem FunctionLike.walk (hK : K.Static fresh V) {Γ : Surroundings} {r r' : Resolution}
    {d d' : FunctionDecl} (h : FunctionLike K Γ d d') (routine : EnclosingRoutine)
    (hr : ResolutionLike fresh Γ r r') (hV : AllOf V (d.visits routine r)) :
    WalkLike K fresh Γ (d.resolve routine r) (d'.resolve routine r') (d.visits routine r)
      (d'.visits routine r') := by
  cases h with
  | mk _ _ hparameters hbody =>
    have hinner := hbody.walk hK (hr.enterRoutine hK routine hparameters) hV
    exact ⟨hr.leaveRoutine hinner.ends, hinner.visits⟩

theorem FunctionEachLike.walk (hK : K.Static fresh V) {Γ : Surroundings} {r r' : Resolution}
    {ds ds' : List FunctionDecl} (h : FunctionEachLike K Γ ds ds')
    (hr : ResolutionLike fresh Γ r r') (hV : AllOf V (FunctionDecl.visitsMethods ds r)) :
    WalkLike K fresh Γ (FunctionDecl.resolveMethods ds r) (FunctionDecl.resolveMethods ds' r')
      (FunctionDecl.visitsMethods ds r) (FunctionDecl.visitsMethods ds' r') := by
  cases h with
  | nil => exact .none hr
  | @cons _ d d' _ _ hd hrest =>
    have hV := allOf_append.mp hV
    have hinit : d'.isInitializer = d.isInitializer := by
      unfold FunctionDecl.isInitializer
      rw [(hK.token _ _ hd.name).1]
    rw [FunctionDecl.resolveMethods, FunctionDecl.resolveMethods, FunctionDecl.visitsMethods,
      FunctionDecl.visitsMethods, hinit]
    have hd' := hd.walk hK _ hr hV.1
    exact hd'.andThen (hrest.walk hK hd'.ends hV.2)

end

/-! ### Programs -/

/-- At the start of a resolution, and wherever no scope is open, nothing is renamed. -/
theorem resolutionLike_top {r : Resolution} (h : SameOuter {} r) (herrors : r.errors = []) :
    ResolutionLike fresh .top {} r := by
  have hscopes : r.scopes = [] := List.eq_nil_of_length_eq_zero h.length
  refine ⟨?_, ?_, h.routine, h.enclosingClass, h.loopDepth, h.initializing? rfl⟩
  · rw [hscopes]
    exact .nil fun _ => rfl
  · rw [herrors]

/-- Visits of the same identities at the same distances note the same. -/
theorem foldl_note_like (hids : ∀ Γ p p', K.place Γ p p' → p'.id = p.id) {visits visits' : List Visit}
    (h : List.Forall₂ (VisitLike K) visits visits') (distances : Distances) :
    visits'.foldl Visit.note distances = visits.foldl Visit.note distances := by
  induction h generalizing distances with
  | nil => rfl
  | @cons v v' _ _ hv _ ih =>
    obtain ⟨Γ, hplace⟩ := hv.place
    have hdistance := hv.distance
    have hnote : v'.note distances = v.note distances := by
      unfold Visit.distance? at hdistance
      unfold Visit.note
      rw [hdistance, hids _ _ _ hplace]
    rw [List.foldl_cons, List.foldl_cons, hnote]
    exact ih _

/-- A program that looks like one without errors has none. -/
theorem StmtEachLike.run_isOk (hK : K.Static fresh V) {ss ss' : List Stmt}
    (h : StmtEachLike K .top ss ss') (hV : AllOf V (Stmt.visitsEach ss {})) {distances : Distances}
    (hrun : Resolution.run ss = .ok distances) :
    Resolution.run ss' = .ok (Stmt.resolveEach ss' {}).distances ∧
      List.Forall₂ (VisitLike K) (Stmt.visitsEach ss {}) (Stmt.visitsEach ss' {}) := by
  have hwalk := h.walk hK (resolutionLike_top (.refl {}) rfl) hV
  have herrors := hwalk.ends.errors
  rw [(distances_of_run hrun).1, List.map_nil, List.map_eq_nil_iff] at herrors
  refine ⟨?_, hwalk.visits⟩
  simp only [Resolution.run, herrors, List.isEmpty_nil, if_true]

/-- If moreover occurrences that correspond have one identity, the distances are the same. -/
theorem StmtEachLike.run_eq (hK : K.Static fresh V) (hids : ∀ Γ p p', K.place Γ p p' → p'.id = p.id)
    {ss ss' : List Stmt} (h : StmtEachLike K .top ss ss') (hV : AllOf V (Stmt.visitsEach ss {}))
    {distances : Distances} (hrun : Resolution.run ss = .ok distances) :
    Resolution.run ss' = .ok distances := by
  obtain ⟨hrun', hvisits⟩ := h.run_isOk hK hV hrun
  rw [hrun', (distances_of_run hrun').2, foldl_note_like hids hvisits,
    ← (distances_of_run hrun).2]

end Lox
