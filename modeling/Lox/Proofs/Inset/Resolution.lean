import Lox.Proofs.Inset.Scopes

/-!
# Resolutions of code with further scopes

If a tree was resolved without errors, so is one that has the same tokens at an inset.  Its
occurrences have the distances that the inset says.

The increment of a loop is resolved behind its body, and its copies in front of a `continue`
are resolved inside of the body.  The scopes in between do not declare a name of the
increment, so each copy finds its names as many scopes further out as it stands further in.
-/

namespace Lox

open Resolution

/-- The same tokens, whatever the identities. -/
def Spelled : Counterparts := fun _ _ p p' => p'.token = p.token

theorem Spelled.anonymous : Counterparts.Anonymous Spelled := fun _ _ _ _ _ h => h

theorem Spelled.reflexive : Counterparts.Reflexive Spelled (fun _ => True) fun _ => True :=
  ⟨fun _ _ => trivial, fun _ _ _ _ _ => rfl⟩

abbrev Visit.AllNoted (D : Distances) (visits : List Visit) : Prop :=
  ∀ v ∈ visits, D[v.place.id]? = v.distance?

/--
What is said of the walk through a second tree: it ends without errors, and the noted
distances of its visits tell that the tree is placed as it should be.
-/
structure Tells (P : Distances → Prop) (r' : Resolution) (visits' : List Visit) : Prop where
  clean : r'.errors = []
  placed : ∀ D', Visit.AllNoted D' visits' → P D'

section

variable {P Q : Distances → Prop} {r' r₁' : Resolution} {visits' visits₁' : List Visit}

theorem Tells.imp (h : Tells P r' visits') (hPQ : ∀ D', P D' → Q D') : Tells Q r' visits' :=
  ⟨h.clean, fun D' hnoted => hPQ D' (h.placed D' hnoted)⟩

theorem Tells.andThen (h : Tells P r' visits') (h' : Tells Q r₁' visits₁') :
    Tells (fun D' => P D' ∧ Q D') r₁' (visits' ++ visits₁') := by
  refine ⟨h'.clean, ?_⟩
  intro D' hnoted
  obtain ⟨hfirst, hsecond⟩ := List.forall_mem_append.mp hnoted
  exact ⟨h.placed D' hfirst, h'.placed D' hsecond⟩

end

variable {D : Distances} {V : Visit → Prop} {N : String → Prop} {σ : Inset} {r r' : Resolution}

/-! ### Occurrences -/

theorem Resolution.errors_locate (place : Occurrence) (r : Resolution) :
    (r.locate place).errors = r.errors := by
  unfold locate
  split <;> rfl

/-- An occurrence that both walks see, and the distances that they note. -/
theorem Resolution.Views.placed (h : Views N σ r r') {kind : OccurrenceKind} {p p' : Occurrence}
    (htoken : p'.token = p.token) (hrecorded : Visit.Recorded D ⟨kind, p, r⟩) (hN : N p.name)
    {D' : Distances} (hnoted : D'[p'.id]? = Visit.distance? ⟨kind, p', r'⟩) :
    InPlace D D' σ kind p p' := by
  have hname : p'.name = p.name := congrArg Token.lexeme htoken
  have hleft : D[p.id]? = distance? r.scopes p.name := hrecorded.distance
  refine ⟨htoken, ?_, ?_⟩
  · rw [hnoted, hleft]
    change distance? r'.scopes p'.name = _
    rw [hname]
    exact h.distance p.name hN
  · rintro rfl d hd
    have hsuper : p.name = "super" := hrecorded.fits
    rw [hleft, hsuper] at hd
    rw [hsuper] at hN
    exact h.super d hN hd

theorem Resolution.Views.tells_one (hV : ∀ v, V v → v.Recorded D ∧ N v.place.name)
    (h : Views N σ r r') {kind : OccurrenceKind} {p p' : Occurrence}
    (htoken : p'.token = p.token) (hvisit : V ⟨kind, p, r⟩) {r₁' : Resolution}
    (hclean : r₁'.errors = []) :
    Tells (fun D' => InPlace D D' σ kind p p') r₁' [⟨kind, p', r'⟩] := by
  obtain ⟨hrecorded, hN⟩ := hV _ hvisit
  exact ⟨hclean, fun D' hnoted => h.placed htoken hrecorded hN (hnoted _ List.mem_cons_self)⟩

theorem Resolution.Views.tells_read (hV : ∀ v, V v → v.Recorded D ∧ N v.place.name)
    (h : Views N σ r r') {p p' : Occurrence}
    (htoken : p'.token = p.token) (hvisit : V ⟨.read, p, r⟩) (hclean : r'.errors = []) :
    Tells (fun D' => InPlace D D' σ .read p p') (r'.read p') [⟨.read, p', r'⟩] := by
  have hfaultless : r.readFault? p.name = none := (hV _ hvisit).1.faultless
  have hname : p'.name = p.name := congrArg Token.lexeme htoken
  apply h.tells_one hV htoken hvisit
  unfold Resolution.read
  rw [hname, h.readable p.name hfaultless]
  exact (errors_locate p' r').trans hclean

theorem Resolution.Views.tells_this (hV : ∀ v, V v → v.Recorded D ∧ N v.place.name)
    (h : Views N σ r r') {p p' : Occurrence}
    (htoken : p'.token = p.token) (hvisit : V ⟨.this, p, r⟩) (hclean : r'.errors = []) :
    Tells (fun D' => InPlace D D' σ .this p p') (r'.resolveThis p') [⟨.this, p', r'⟩] := by
  have hfaultless : r.enclosingClass ≠ .outside := (hV _ hvisit).1.faultless
  apply h.tells_one hV htoken hvisit
  unfold Resolution.resolveThis
  rw [h.enclosingClass]
  cases hclass : r.enclosingClass with
  | outside => exact absurd hclass hfaultless
  | base => exact (errors_locate p' r').trans hclean
  | derived => exact (errors_locate p' r').trans hclean

theorem Resolution.Views.tells_super (hV : ∀ v, V v → v.Recorded D ∧ N v.place.name)
    (h : Views N σ r r') {p p' : Occurrence}
    (htoken : p'.token = p.token) (hvisit : V ⟨.super, p, r⟩) (hclean : r'.errors = []) :
    Tells (fun D' => InPlace D D' σ .super p p') (r'.resolveSuper p') [⟨.super, p', r'⟩] := by
  have hfaultless : r.enclosingClass = .derived := (hV _ hvisit).1.faultless
  apply h.tells_one hV htoken hvisit
  unfold Resolution.resolveSuper
  rw [h.enclosingClass, hfaultless]
  exact (errors_locate p' r').trans hclean

/-! ### Expressions -/

theorem Resolution.Views.behind (h : Views N σ r r') (e e' : Expr) :
    Views N σ (e.resolve r) (e'.resolve r') :=
  h.of_sameScopes (e.sameScopes_resolve r) (e'.sameScopes_resolve r')

mutual

theorem ExprInset.tells (hV : ∀ v, V v → v.Recorded D ∧ N v.place.name) {r r' : Resolution}
    {e e' : Expr} (h : ExprInset Spelled σ e e')
    (hviews : Views N σ r r') (hvisits : ∀ v ∈ e.visits r, V v) (hclean : r'.errors = []) :
    Tells (fun D' => ExprInset (InPlace D D') σ e e') (e'.resolve r') (e'.visits r') := by
  cases h with
  | literal => exact ⟨hclean, fun _ _ => .literal⟩
  | unary he => exact (he.tells hV hviews hvisits hclean).imp fun _ => .unary
  -- The right side is walked behind the left one, and both are told by the visits of both.
  | @binary left left' _ _ _ hleft hright =>
    obtain ⟨hfirst, hsecond⟩ := List.forall_mem_append.mp hvisits
    have hl := hleft.tells hV hviews hfirst hclean
    have hviews₁ := hviews.behind left left'
    have hr := hright.tells hV hviews₁ hsecond hl.clean
    exact (hl.andThen hr).imp fun _ ⟨hl, hr⟩ => .binary hl hr
  | @logical left left' _ _ _ hleft hright =>
    obtain ⟨hfirst, hsecond⟩ := List.forall_mem_append.mp hvisits
    have hl := hleft.tells hV hviews hfirst hclean
    have hviews₁ := hviews.behind left left'
    have hr := hright.tells hV hviews₁ hsecond hl.clean
    exact (hl.andThen hr).imp fun _ ⟨hl, hr⟩ => .logical hl hr
  | group he => exact (he.tells hV hviews hvisits hclean).imp fun _ => .group
  -- What a name is resolved to is told by its one visit.
  | read htoken =>
    have hvisit := hvisits _ List.mem_cons_self
    exact (hviews.tells_read hV htoken hvisit hclean).imp fun _ => .read
  -- The value is walked first; the visit of the assigned name comes behind its visits.
  | @assign place place' value value' htoken hvalue =>
    obtain ⟨hfirst, hsecond⟩ := List.forall_mem_append.mp hvisits
    have hv := hvalue.tells hV hviews hfirst hclean
    have hviews₁ := hviews.behind value value'
    have hp := hviews₁.tells_one hV htoken (hsecond _ List.mem_cons_self)
      ((errors_locate place' (value'.resolve r')).trans hv.clean)
    exact (hv.andThen hp).imp fun _ ⟨hv, hp⟩ => .assign hp hv
  | @call callee callee' _ _ _ hcallee harguments =>
    obtain ⟨hfirst, hsecond⟩ := List.forall_mem_append.mp hvisits
    have hc := hcallee.tells hV hviews hfirst hclean
    have hviews₁ := hviews.behind callee callee'
    have ha := harguments.tells hV hviews₁ hsecond hc.clean
    exact (hc.andThen ha).imp fun _ ⟨hc, ha⟩ => .call hc ha
  | get hobject => exact (hobject.tells hV hviews hvisits hclean).imp fun _ => .get
  -- The value of a field is walked before the object.
  | @set _ _ value value' _ hobject hvalue =>
    obtain ⟨hfirst, hsecond⟩ := List.forall_mem_append.mp hvisits
    have hv := hvalue.tells hV hviews hfirst hclean
    have hviews₁ := hviews.behind value value'
    have ho := hobject.tells hV hviews₁ hsecond hv.clean
    exact (hv.andThen ho).imp fun _ ⟨hv, ho⟩ => .set ho hv
  | this htoken =>
    have hvisit := hvisits _ List.mem_cons_self
    exact (hviews.tells_this hV htoken hvisit hclean).imp fun _ => .this
  | super htoken =>
    have hvisit := hvisits _ List.mem_cons_self
    exact (hviews.tells_super hV htoken hvisit hclean).imp fun _ => .super

theorem ExprEachInset.tells (hV : ∀ v, V v → v.Recorded D ∧ N v.place.name) {r r' : Resolution}
    {es es' : List Expr}
    (h : ExprEachInset Spelled σ es es') (hviews : Views N σ r r')
    (hvisits : ∀ v ∈ Expr.visitsEach es r, V v) (hclean : r'.errors = []) :
    Tells (fun D' => ExprEachInset (InPlace D D') σ es es') (Expr.resolveEach es' r')
      (Expr.visitsEach es' r') := by
  cases h with
  | nil => exact ⟨hclean, fun _ _ => .nil⟩
  | @cons e e' _ _ he hrest =>
    obtain ⟨hfirst, hsecond⟩ := List.forall_mem_append.mp hvisits
    have hone := he.tells hV hviews hfirst hclean
    have hviews₁ := hviews.behind e e'
    have hmore := hrest.tells hV hviews₁ hsecond hone.clean
    exact (hone.andThen hmore).imp fun _ ⟨hone, hmore⟩ => .cons hone hmore

end

theorem ExprIn?Inset.tells (hV : ∀ v, V v → v.Recorded D ∧ N v.place.name)
    {e e' : Option Expr} (h : ExprIn?Inset Spelled σ e e')
    (hviews : Views N σ r r') (hvisits : ∀ v ∈ Expr.visitsIn? e r, V v) (hclean : r'.errors = []) :
    Tells (fun D' => ExprIn?Inset (InPlace D D') σ e e') (Expr.resolveIn? e' r')
      (Expr.visitsIn? e' r') := by
  cases h with
  | none => exact ⟨hclean, fun _ _ => .none⟩
  | some he => exact (he.tells hV hviews hvisits hclean).imp fun _ => .some

/-! ### The increment of a loop around -/

/--
The increment of a loop is resolved in the state `r₀`, and the code at hand stands inside of
`k` more scopes, which do not declare a name of the increment.
-/
structure InBody (D : Distances) (step : Option Expr) (r₀ : Resolution) (k : Nat)
    (r : Resolution) : Prop where
  recorded : ∀ v ∈ Expr.visitsIn? step r₀, v.Recorded D
  distance : ∀ name, ¬ FreeOf step name →
    distance? r.scopes name = (distance? r₀.scopes name).map (k + ·)
  super : ¬ FreeOf step "super" → ∀ d, distance? r₀.scopes "super" = some d → d ≠ 0
  enclosingClass : r.enclosingClass = r₀.enclosingClass

variable {step : Option Expr} {k : Nat} {r₀ r₁ : Resolution} {s s' : Stmt}

/-- Without an increment nothing is awaited. -/
theorem InBody.none (D : Distances) (k : Nat) (r : Resolution) : InBody D none r k r :=
  ⟨fun _ hv => absurd hv List.not_mem_nil, fun name hname => absurd (FreeOf.none name) hname,
    fun hsuper => absurd (FreeOf.none "super") hsuper, rfl⟩

theorem InBody.enter (h : InBody D step r₀ k r) : InBody D step r₀ (k + 1) r.openScope := by
  refine ⟨h.recorded, ?_, h.super, h.enclosingClass⟩
  intro name hname
  have houter : distance? r.openScope.scopes name = (distance? r.scopes name).map (· + 1) :=
    distance?_of_not_contains rfl
  rw [houter, h.distance name hname, Option.map_map]
  congr 1
  funext d
  exact Nat.add_right_comm k d 1

theorem InBody.of_sameScopes (h : InBody D step r₀ k r) (hsame : SameScopes r r₁) :
    InBody D step r₀ k r₁ := by
  refine ⟨h.recorded, ?_, h.super, hsame.enclosingClass.trans h.enclosingClass⟩
  rw [hsame.scopes]
  exact h.distance

theorem Resolution.distance?_mark_of_ne {name other : String} (hne : other ≠ name)
    (readable : Bool) (r : Resolution) :
    distance? (r.mark name readable).scopes other = distance? r.scopes other := by
  rw [scopes_mark]
  cases r.scopes with
  | nil => rfl
  | cons scope outer => rw [distance?_cons, distance?_cons, contains_insert_of_ne hne]

/-- What a statement declares does not occur in the increment. -/
theorem StmtInset.freeOf (h : StmtInset Spelled σ k step s s') {name : String}
    (hdeclared : s.declared? = some name) : FreeOf step name := by
  cases h with
  | var _ hfree | function _ hfree | «class» _ hfree =>
    cases hdeclared
    exact hfree
  | unrolled hloop | boxed hloop =>
    cases hloop
    cases hdeclared
  | _ => cases hdeclared

theorem InBody.behind (h : InBody D step r₀ k r) (hs : StmtInset Spelled σ k step s s')
    (hshaped : s.Shaped) : InBody D step r₀ k (s.resolve r) := by
  have hclass := (s.sameOuter_resolve r).enclosingClass
  refine ⟨h.recorded, ?_, h.super, hclass.trans h.enclosingClass⟩
  intro name hname
  cases hdeclared : s.declared? with
  | none =>
    rw [Stmt.scopes_of_declares_nothing hshaped hdeclared]
    exact h.distance name hname
  | some declared =>
    have hne : name ≠ declared := by
      rintro rfl
      exact hname (hs.freeOf hdeclared)
    rw [Stmt.scopes_of_declares hshaped hdeclared, distance?_mark_of_ne hne]
    exact h.distance name hname

/-- Inside of a further scope the second walk sees what the increment sees. -/
theorem InBody.views (h : InBody D step r₀ k r) (hr : Beside σ r r') :
    Views (fun name => ¬ FreeOf step name) (σ.outer k).further r₀ r'.openScope := by
  refine ⟨?_, ?_, fun name _ => readFault?_openScope r' name,
    hr.enclosingClass.trans h.enclosingClass⟩
  · intro name hname
    have hfound := hr.scopes.distance? name
    rw [h.distance name hname, Option.map_map] at hfound
    exact distance?_further hfound
  · intro d hsuper hd
    obtain ⟨e, rfl⟩ := Nat.exists_eq_succ_of_ne_zero (h.super hsuper d hd)
    have hfound := h.distance "super" hsuper
    rw [hd] at hfound
    obtain ⟨e', he', hσ⟩ := hr.scopes.super _ hfound
    obtain rfl : e' = k + e := (Nat.succ.inj he').symm
    exact hσ.symm

theorem InBody.visits (h : InBody D step r₀ k r) :
    ∀ v ∈ Expr.visitsIn? step r₀, v.Recorded D ∧ ¬ FreeOf step v.place.name := by
  intro v hv
  refine ⟨h.recorded v hv, ?_⟩
  intro hfree
  exact hfree v.entry ((Expr.perm_visitsIn? r₀ step).subset (List.mem_map_of_mem hv)) rfl

/-! ### Entering the parts of statements -/

/-- Behind statements that correspond both walks stand beside each other again. -/
theorem Resolution.Beside.behind (hr : Beside σ r r') (hs : StmtInset Spelled σ k step s s')
    (hshaped : s.Shaped) (hclean : (s'.resolve r').errors = []) :
    Beside σ (s.resolve r) (s'.resolve r') := by
  refine hr.of_sameOuter (s.sameOuter_resolve r) (s'.sameOuter_resolve r') ?_ hclean
  rw [s.scopes_behind, s'.scopes_behind, hs.declares_eq hshaped, s.declares_of_shaped hshaped]
  cases hdeclared : s.declared? with
  | none => exact hr.scopes
  | some name =>
    have hσ : σ 0 = 0 := by
      by_contra hne
      cases (hs.declared?_eq_none hne).symm.trans hdeclared
    have hname : name ≠ "super" := (s.declared?_isName hshaped name hdeclared).2
    exact hr.scopes.mark hσ hname true

theorem Resolution.errors_inInitializer (name : String) (value : Expr) (r : Resolution) :
    (r.inInitializer name value.resolve).errors =
      (value.resolve (r.enterInitializer name)).errors := by
  unfold inInitializer enterInitializer
  cases r.scopes <;> rfl

/-- The initializer of a variable, whose name cannot be read yet. -/
theorem Resolution.Beside.initializer (hr : Beside σ r r') (hσ : σ 0 = 0) {name : Token}
    (hname : name.lexeme ≠ "super") :
    Views (fun _ => True) σ ((r.declare name).enterInitializer name.lexeme)
      ((r'.declare name).enterInitializer name.lexeme) := by
  have hleft := sameOuter_declare name r
  have hright := sameOuter_declare name r'
  have hscopes : ScopesInset σ (r.declare name).scopes (r'.declare name).scopes := by
    rw [scopes_declare, scopes_declare]
    exact hr.scopes.mark hσ hname false
  have hclass : (r'.declare name).enclosingClass = (r.declare name).enclosingClass := by
    rw [hright.enclosingClass, hleft.enclosingClass, hr.enclosingClass]
  have hinit : (r'.declare name).initializing? = (r.declare name).initializing? := by
    rw [hright.initializing? hr.initializing?', hleft.initializing? hr.initializing?]
  apply ScopesInset.views
  · rw [scopes_enterInitializer, scopes_enterInitializer]
    exact hscopes
  · unfold Resolution.enterInitializer
    generalize (r.declare name).scopes = scopes at hscopes
    generalize (r'.declare name).scopes = scopes' at hscopes
    cases hscopes with
    | top => rfl
    | inner | derived => exact hinit
    | further => cases hσ
  · unfold Resolution.enterInitializer
    split <;> split <;> exact hclass

theorem Resolution.reportIf_of_not {p : Prop} [Decidable p] (hp : ¬ p) (cause : ScopeCause)
    (token : Token) (r : Resolution) : r.reportIf p cause token = r := by
  unfold reportIf
  rw [decide_eq_false hp]
  rfl

/-- The body of a loop, whether a further scope is around it or not. -/
theorem InBody.start (hshaped : s.Shaped) (hdeclared : s.declared? = .none) (hr : Beside σ r r')
    (hrecorded : ∀ v ∈ Expr.visitsIn? step (r.inLoop s.resolve), v.Recorded D) :
    InBody D step (r.inLoop s.resolve) 0 r.enterLoop := by
  have hscopes : (r.inLoop s.resolve).scopes = r.scopes :=
    Stmt.scopes_of_declares_nothing hshaped hdeclared r.enterLoop
  refine ⟨hrecorded, ?_, ?_, (s.sameOuter_resolve r.enterLoop).enclosingClass.symm⟩
  · intro name _
    rw [hscopes]
    change distance? r.scopes name = _
    cases distance? r.scopes name with
    | none => rfl
    | some d => exact congrArg some (Nat.zero_add d).symm
  · intro _ d hd
    rw [hscopes] at hd
    obtain ⟨e, rfl, -⟩ := hr.scopes.super d hd
    exact Nat.succ_ne_zero e

/-- Both walks enter the body of a function. -/
theorem Resolution.Beside.enterRoutine (hr : Beside σ r r') (routine : EnclosingRoutine)
    {parameters : List Token} (hparameters : ∀ t ∈ parameters, IsName t.lexeme)
    (hclean : (r.enterRoutine routine parameters).errors = []) :
    Beside σ.enter (r.enterRoutine routine parameters) (r'.enterRoutine routine parameters) := by
  have hbody : Beside σ { r with routine := routine, loopDepth := 0 }
      { r' with routine := routine, loopDepth := 0 } :=
    ⟨hr.scopes, rfl, hr.enclosingClass, rfl, hr.initializing?, hr.initializing?', hr.clean⟩
  exact hbody.openScope.declareParameters rfl (fun t ht => (hparameters t ht).2) hclean

/-- Both walks enter the scopes around the methods of a class. -/
theorem Resolution.Beside.enterClassBody (hr : Beside σ r r') (derived : Bool) :
    Beside (σ.enterClass derived) (r.enterClassBody derived) (r'.enterClassBody derived) := by
  cases derived with
  | false =>
    exact ⟨.inner rfl hr.scopes, hr.routine, hr.enclosingClass, hr.loopDepth, hr.initializing?,
      hr.initializing?', hr.clean⟩
  | true =>
    exact ⟨.derived rfl hr.scopes, hr.routine, hr.enclosingClass, hr.loopDepth, hr.initializing?,
      hr.initializing?', hr.clean⟩

/-- Both walks go through the name of a class and that of its superclass. -/
theorem Resolution.Beside.enterClass (hV : ∀ v, V v → v.Recorded D ∧ True) (hr : Beside σ r r')
    (hσ : σ 0 = 0) {name : Token} (hname : name.lexeme ≠ "super")
    {superclass superclass' : Option Occurrence}
    (hplace : Option.Rel (Spelled σ .read) superclass superclass')
    (hvisits : ∀ v ∈ Occurrence.visitsIn? name superclass r, V v)
    (hclean : (r.enterClass name superclass).errors = []) :
    Beside σ (r.enterClass name superclass) (r'.enterClass name superclass') ∧
      Tells (fun D' => Option.Rel (InPlace D D' σ .read) superclass superclass')
        (r'.enterClass name superclass') (Occurrence.visitsIn? name superclass' r') := by
  have hbase : Beside σ { r with enclosingClass := .base } { r' with enclosingClass := .base } :=
    ⟨hr.scopes, hr.routine, rfl, hr.loopDepth, hr.initializing?, hr.initializing?', hr.clean⟩
  cases hplace with
  | none =>
    have hdeclared := (walked_define name _).before hclean
    have hbehind := hbase.declare_define hσ hname hdeclared
    exact ⟨hbehind, hbehind.clean, fun _ _ => .none⟩
  | @some parent parent' htoken =>
    have hparent : parent'.name = parent.name := congrArg Token.lexeme htoken
    have hbefore := (walked_read parent (r.enterSuperclass name parent)).before hclean
    have hdiffers : ¬ parent.name = name.lexeme := of_decide_eq_false (not_of_reportIf hbefore)
    have hdefined := (walked_reportIf (parent.name = name.lexeme) .inheritsFromItself parent.token
      _).before hbefore
    have hbehind := hbase.declare_define hσ hname ((walked_define name _).before hdefined)
    have hstate : Beside σ (r.enterSuperclass name parent) (r'.enterSuperclass name parent') := by
      unfold Resolution.enterSuperclass
      simp only [hparent, reportIf_of_not hdiffers]
      exact ⟨hbehind.scopes, hbehind.routine, rfl, hbehind.loopDepth, hbehind.initializing?,
        hbehind.initializing?', hbehind.clean⟩
    have hread := hstate.views.tells_read hV htoken (hvisits _ List.mem_cons_self) hstate.clean
    exact ⟨hstate.of_sameScopes (sameScopes_read parent _) (sameScopes_read parent' _) hread.clean,
      hread.imp fun _ => .some⟩

/-! ### Statements -/

theorem Stmt.resolveEach_steps (step : Option Expr) (rest : List Stmt) (r : Resolution) :
    Stmt.resolveEach (Stmt.steps step ++ rest) r =
      Stmt.resolveEach rest (Expr.resolveIn? step r) := by
  cases step <;> rfl

theorem Stmt.visitsEach_steps (step : Option Expr) (rest : List Stmt) (r : Resolution) :
    Stmt.visitsEach (Stmt.steps step ++ rest) r =
      Expr.visitsIn? step r ++ Stmt.visitsEach rest (Expr.resolveIn? step r) := by
  cases step <;> rfl

/-- What the walk through a statement tells, in any states that it can be walked through in. -/
abbrev StmtTells (D : Distances) (V : Visit → Prop) (σ : Inset) (k : Nat) (step : Option Expr)
    (s s' : Stmt) : Prop :=
  ∀ {r r' r₀ : Resolution}, Beside σ r r' → StmtOk V r s → InBody D step r₀ k r →
    Tells (fun D' => StmtInset (InPlace D D') σ k step s s') (s'.resolve r') (s'.visits r')

/-- What the walk through functions tells, in any states that it can be walked through in. -/
abbrev FunctionTells (D : Distances) (V : Visit → Prop) (σ : Inset) (d d' : FunctionDecl) : Prop :=
  ∀ {r r' : Resolution} {routine : EnclosingRoutine}, Beside σ r r' → RoutineOk V routine d r →
    Tells (fun D' => FunctionInset (InPlace D D') σ d d') (d'.resolve routine r')
      (d'.visits routine r')

section

variable {condition condition' : Expr} {body body' thenBranch thenBranch' : Stmt}
  {increment increment' : Option Expr} {name keyword : Token}

theorem Resolution.Views.leaveLoop_left {walk : Resolution → Resolution}
    (h : Views N σ (walk r.enterLoop) r') : Views N σ (r.inLoop walk) r' :=
  ⟨h.distance, h.super, h.readable, h.enclosingClass⟩

theorem Resolution.Views.leaveLoop_right {walk : Resolution → Resolution}
    (h : Views N σ r (walk r'.enterLoop)) : Views N σ r (r'.inLoop walk) :=
  ⟨h.distance, h.super, h.readable, h.enclosingClass⟩

/-- Behind an expression both walks stand beside each other again. -/
theorem Resolution.Beside.behind_expr (hr : Beside σ r r') (e : Expr) {e' : Expr}
    (hclean : (e'.resolve r').errors = []) : Beside σ (e.resolve r) (e'.resolve r') :=
  hr.of_sameScopes (e.sameScopes_resolve r) (e'.sameScopes_resolve r') hclean

variable (hV : ∀ v, V v → v.Recorded D ∧ True)

include hV

theorem tells_var {value value' : Option Expr} (hσ : σ 0 = 0) (hfree : FreeOf step name.lexeme)
    (hvalue : ExprIn?Inset Spelled σ value value') :
    StmtTells D V σ k step (.var name value) (.var name value') := by
  intro r r' r₀ hr hok _
  have hname : name.lexeme ≠ "super" := hok.shaped.2
  cases hvalue with
  | none =>
    have hdeclared := (walked_define name _).before hok.passed.clean
    exact ⟨(hr.declare_define hσ hname hdeclared).clean, fun _ _ => .var hσ hfree .none⟩
  | @some e e' he =>
    have hbefore := (walked_define name _).before hok.passed.clean
    have hdeclared := (walked_inInitializer name.lexeme e (r.declare name)).before hbefore
    have hdeclared' := hr.scopes.errors_declare hσ hr.clean hdeclared
    have hentered : ((r'.declare name).enterInitializer name.lexeme).errors = [] := by
      unfold Resolution.enterInitializer
      split <;> exact hdeclared'
    have hvalue := he.tells hV (hr.initializer hσ hname) hok.passed.visited hentered
    refine ⟨?_, fun D' hnoted => .var hσ hfree (.some (hvalue.placed D' hnoted))⟩
    change (((r'.declare name).inInitializer name.lexeme e'.resolve).define name).errors = []
    rw [Resolution.define, errors_mark, errors_inInitializer]
    exact hvalue.clean

theorem tells_conditional (hcondition : ExprInset Spelled σ condition condition')
    (hthen : StmtTells D V σ k step thenBranch thenBranch') :
    StmtTells D V σ k step (.conditional condition thenBranch none)
      (.conditional condition' thenBranch' none) := by
  intro r r' r₀ hr hok hstep
  obtain ⟨hfirst, -⟩ := hok.passed.append (thenBranch.walked _)
  have hc := hcondition.tells hV hr.views hfirst.visited hr.clean
  have ht := hthen (hr.behind_expr condition hc.clean) hok.conditional.2.1
    (hstep.of_sameScopes (condition.sameScopes_resolve r))
  exact (hc.andThen ht).imp fun _ ⟨hc, ht⟩ => .conditional hc ht

theorem tells_alternative {elseBranch elseBranch' : Stmt}
    (hcondition : ExprInset Spelled σ condition condition')
    (hboth : StmtInset Spelled σ k step thenBranch thenBranch')
    (hthen : StmtTells D V σ k step thenBranch thenBranch')
    (helse : StmtTells D V σ k step elseBranch elseBranch') :
    StmtTells D V σ k step (.conditional condition thenBranch (some elseBranch))
      (.conditional condition' thenBranch' (some elseBranch')) := by
  intro r r' r₀ hr hok hstep
  obtain ⟨hbefore, -⟩ := hok.passed.append (elseBranch.walked _)
  obtain ⟨hfirst, -⟩ := hbefore.append (thenBranch.walked _)
  obtain ⟨-, hthenOk, -, helseOk⟩ := hok.conditional
  have hc := hcondition.tells hV hr.views hfirst.visited hr.clean
  have hr₁ := hr.behind_expr condition hc.clean
  have hstep₁ := hstep.of_sameScopes (condition.sameScopes_resolve r)
  have ht := hthen hr₁ hthenOk hstep₁
  have he := helse (hr₁.behind hboth hthenOk.shaped ht.clean) (helseOk _ rfl).1
    (hstep₁.behind hboth hthenOk.shaped)
  exact ((hc.andThen ht).andThen he).imp fun _ ⟨⟨hc, ht⟩, he⟩ => .alternative hc ht he

theorem tells_loop (hcondition : ExprInset Spelled σ condition condition')
    (hboth : StmtInset Spelled σ 0 none body body') (hbody : StmtTells D V σ 0 none body body')
    (hincrement : ExprIn?Inset Spelled σ increment increment') :
    StmtTells D V σ k step (.loop condition body increment)
      (.loop condition' body' increment') := by
  intro r r' r₀ hr hok _
  obtain ⟨hbefore, hlast⟩ := hok.passed.append (Expr.walkedIn? _ _)
  obtain ⟨hfirst, -⟩ := hbefore.append (body.walked (condition.resolve r).enterLoop)
  have hinner := hok.loop.inner
  have hc := hcondition.tells hV hr.views hfirst.visited hr.clean
  have hr₁ := (hr.behind_expr condition hc.clean).enterLoop
  have hb := hbody hr₁ hinner (.none D 0 _)
  have hviews := (hr₁.behind hboth hinner.shaped hb.clean).views.leaveLoop_left.leaveLoop_right
  have hi := ExprIn?Inset.tells hV hincrement hviews hlast.visited hb.clean
  exact ((hc.andThen hb).andThen hi).imp fun _ ⟨⟨hc, hb⟩, hi⟩ => .loop hc hb hi

theorem tells_returning {value value' : Option Expr} (hvalue : ExprIn?Inset Spelled σ value value') :
    StmtTells D V σ k step (.returning keyword value) (.returning keyword value') := by
  intro r r' r₀ hr hok _
  obtain ⟨htop, hinit⟩ := hok.returning
  cases hvalue with
  | none =>
    refine ⟨?_, fun _ _ => .returning .none⟩
    rw [Stmt.resolve, hr.routine, reportIf_of_not htop]
    exact hr.clean
  | some he =>
    have hvisited := hok.passed.visited
    simp only [Stmt.visits, reportIf_of_not htop, reportIf_of_not (hinit _ rfl).2] at hvisited
    simp only [Stmt.resolve, Stmt.visits, hr.routine, reportIf_of_not htop,
      reportIf_of_not (hinit _ rfl).2]
    exact (he.tells hV hr.views hvisited hr.clean).imp fun _ he => .returning (.some he)

omit hV in
theorem tells_breaking : StmtTells D V σ k step (.breaking keyword) (.breaking keyword) := by
  intro r r' r₀ hr hok _
  refine ⟨?_, fun _ _ => .breaking⟩
  rw [Stmt.resolve, hr.loopDepth, reportIf_of_not hok.breaking]
  exact hr.clean

omit hV in
theorem tells_continuing :
    StmtTells D V σ k none (.continuing keyword) (.continuing keyword) := by
  intro r r' r₀ hr hok _
  refine ⟨?_, fun _ _ => .continuing⟩
  rw [Stmt.resolve, hr.loopDepth, reportIf_of_not hok.continuing]
  exact hr.clean

omit hV in
theorem tells_function {d d' : FunctionDecl} (hσ : σ 0 = 0) (hfree : FreeOf step d.name.lexeme)
    (hboth : FunctionInset Spelled σ d d') (hd : FunctionTells D V σ d d') :
    StmtTells D V σ k step (.function d) (.function d') := by
  intro r r' r₀ hr hok _
  have hdefined := (d.walked .function _).before hok.passed.clean
  have hdeclared := (walked_define d.name _).before hdefined
  have hbody := hd (hr.declare_define hσ hok.shaped.1.2 hdeclared) hok.function.2
  simp only [Stmt.resolve, Stmt.visits, hboth.name_eq]
  exact hbody.imp fun _ => .function hσ hfree

omit hV in
theorem Resolution.errors_inClassBody (derived : Bool) (walk : Resolution → Resolution)
    (r : Resolution) :
    (r.inClassBody derived walk).errors = (walk (r.enterClassBody derived)).errors := by
  cases derived <;> rfl

theorem tells_class {superclass superclass' : Option Occurrence}
    {methods methods' : List FunctionDecl} (hσ : σ 0 = 0) (hfree : FreeOf step name.lexeme)
    (hplace : Option.Rel (Spelled σ .read) superclass superclass')
    (hmethods : ∀ {r r' : Resolution}, Beside (σ.enterClass superclass.isSome) r r' →
      MethodsOk V r methods →
      Tells (fun D' => FunctionEachInset (InPlace D D') (σ.enterClass superclass.isSome) methods
        methods') (FunctionDecl.resolveMethods methods' r') (FunctionDecl.visitsMethods methods' r')) :
    StmtTells D V σ k step (.class name superclass methods) (.class name superclass' methods') := by
  intro r r' r₀ hr hok _
  have hsome : superclass'.isSome = superclass.isSome := by
    cases hplace <;> rfl
  obtain ⟨hfirst, -⟩ := List.forall_mem_append.mp hok.passed.visited
  have hentered := (walked_inClassBody (fun r => FunctionDecl.walkedMethods methods r)
    (r.enterClass name superclass)).before hok.passed.clean
  obtain ⟨hr₁, hp⟩ := hr.enterClass hV hσ hok.shaped.1.2 hplace hfirst hentered
  have hm := hmethods (hr₁.enterClassBody superclass.isSome) hok.methods
  simp only [Stmt.resolve, Stmt.visits, hsome]
  have hboth := hp.andThen hm
  refine ⟨(errors_inClassBody _ _ _).trans hboth.clean, ?_⟩
  intro D' hnoted
  obtain ⟨hplaced, hmethodsPlaced⟩ := hboth.placed D' hnoted
  exact .class hσ hfree hplaced hmethodsPlaced

omit hV in
/-- Each copy of the increment is resolved as the increment is. -/
theorem tells_stepping (hincrement : ExprIn?Inset Spelled (σ.outer k).further increment increment') :
    StmtTells D V σ k increment (.continuing keyword)
      (.block (Stmt.steps increment' ++ [.continuing keyword])) := by
  intro r r' r₀ hr hok hstep
  have hcopy := ExprIn?Inset.tells (fun _ hv => hv) hincrement (hstep.views hr) hstep.visits hr.clean
  have hdepth : ¬ (Expr.resolveIn? increment' r'.openScope).loopDepth = 0 := by
    rw [(Expr.sameScopes_resolveIn? r'.openScope increment').loopDepth]
    exact fun hzero => hok.continuing (hr.loopDepth.symm.trans hzero)
  constructor
  · change (Stmt.resolveEach (Stmt.steps increment' ++ [.continuing keyword])
      r'.openScope).errors = []
    rw [Stmt.resolveEach_steps, Stmt.resolveEach, Stmt.resolve, reportIf_of_not hdepth]
    exact hcopy.clean
  · intro D' hnoted
    change Visit.AllNoted D'
      (Stmt.visitsEach (Stmt.steps increment' ++ [.continuing keyword]) r'.openScope) at hnoted
    rw [Stmt.visitsEach_steps] at hnoted
    exact .stepping (hcopy.placed D' (List.forall_mem_append.mp hnoted).1)

/-- The increment at the end of the body is resolved as it is behind the body. -/
theorem tells_unrolled (hcondition : ExprInset Spelled σ condition condition')
    (hboth : StmtInset Spelled σ.further 0 increment body body')
    (hbody : StmtTells D V σ.further 0 increment body body')
    (hincrement : ExprIn?Inset Spelled σ.further increment increment') (hr : Beside σ r r')
    (hok : StmtOk V r (.loop condition body increment)) :
    Tells (fun D' => LoopInset (InPlace D D') σ (.loop condition body increment)
        (.loop condition' (.block (body' :: Stmt.steps increment')) none))
      ((Stmt.loop condition' (.block (body' :: Stmt.steps increment')) none).resolve r')
      ((Stmt.loop condition' (.block (body' :: Stmt.steps increment')) none).visits r') := by
  obtain ⟨hbefore, hlast⟩ := hok.passed.append (Expr.walkedIn? _ _)
  obtain ⟨hfirst, -⟩ := hbefore.append (body.walked (condition.resolve r).enterLoop)
  have hinner := hok.loop.inner
  have hc := hcondition.tells hV hr.views hfirst.visited hr.clean
  have hr₁ := hr.behind_expr condition hc.clean
  have hr₂ := hr₁.enterLoop.further
  -- The first program walks condition, body and increment; the second one has the increment at
  -- the end of the block around its body.
  have hb := hbody hr₂ hinner (.start hinner.shaped hok.loop.closed hr₁ fun v hv =>
    (hV v (hlast.visited v hv)).1)
  have hviews := (hr₂.behind hboth hinner.shaped hb.clean).views.leaveLoop_left
  have hi := ExprIn?Inset.tells hV hincrement hviews hlast.visited hb.clean
  have hall := ((hc.andThen hb).andThen hi).imp fun _ ⟨⟨hc, hb⟩, hi⟩ => LoopInset.mk hc hb hi
  -- The increment is at most one statement behind the body.
  have hresolved := Stmt.resolveEach_steps increment' []
    (body'.resolve (condition'.resolve r').enterLoop.openScope)
  have hvisited := Stmt.visitsEach_steps increment' []
    (body'.resolve (condition'.resolve r').enterLoop.openScope)
  rw [List.append_nil] at hresolved hvisited
  constructor
  · -- There are no errors: the last of them would be that of the increment.
    change (Stmt.resolveEach (Stmt.steps increment')
      (body'.resolve (condition'.resolve r').enterLoop.openScope)).errors = []
    rw [hresolved]
    exact hall.clean
  · -- The places are told by the same visits, in the same order.
    intro D' hnoted
    apply hall.placed D'
    intro v hv
    apply hnoted
    change v ∈ condition'.visits r' ++ (body'.visits (condition'.resolve r').enterLoop.openScope ++
      Stmt.visitsEach (Stmt.steps increment')
        (body'.resolve (condition'.resolve r').enterLoop.openScope)) ++ []
    rw [hvisited]
    simpa [Stmt.visitsEach, List.append_assoc] using hv

omit hV in
theorem tells_method {d d' : FunctionDecl} {rest rest' : List FunctionDecl}
    (hboth : FunctionInset Spelled σ d d') (hd : FunctionTells D V σ d d')
    (hrest : ∀ {r r' : Resolution}, Beside σ r r' → MethodsOk V r rest →
      Tells (fun D' => FunctionEachInset (InPlace D D') σ rest rest')
        (FunctionDecl.resolveMethods rest' r') (FunctionDecl.visitsMethods rest' r'))
    (hr : Beside σ r r') (hok : MethodsOk V r (d :: rest)) :
    Tells (fun D' => FunctionEachInset (InPlace D D') σ (d :: rest) (d' :: rest'))
      (FunctionDecl.resolveMethods (d' :: rest') r')
      (FunctionDecl.visitsMethods (d' :: rest') r') := by
  have hinit : d'.isInitializer = d.isInitializer := by
    unfold FunctionDecl.isInitializer
    rw [hboth.name_eq]
  have hpassed := hok.passed
  simp only [FunctionDecl.resolveMethods, FunctionDecl.visitsMethods] at hpassed
  simp only [FunctionDecl.resolveMethods, FunctionDecl.visitsMethods, hinit]
  generalize hkind : (if d.isInitializer = true then EnclosingRoutine.initializer
    else EnclosingRoutine.method) = routine at hpassed ⊢
  obtain ⟨hfirst, hmore⟩ := hpassed.append (FunctionDecl.walkedMethods rest _)
  have hinside : routine ≠ .topLevel := by
    rw [← hkind]
    split <;> decide
  have hone := hd hr ⟨hfirst, hok.shaped.1, hok.settled, hinside⟩
  have hr₁ : Beside σ (d.resolve routine r) (d'.resolve routine r') := by
    apply hr.of_sameOuter (d.sameOuter_resolve routine r) (d'.sameOuter_resolve routine r') ?_
      hone.clean
    rw [d.scopes_resolve, d'.scopes_resolve]
    exact hr.scopes
  have hothers := hrest hr₁ ⟨hmore, hok.shaped.2, d.settled_resolve hok.settled routine⟩
  exact (hone.andThen hothers).imp fun _ hparts => .cons hparts.1 hparts.2

end

mutual

/-- The walk through the second tree finds no error, and places its occurrences at the inset. -/
theorem StmtInset.tells (hV : ∀ v, V v → v.Recorded D ∧ True) : {σ : Inset} → {k : Nat} →
    {step : Option Expr} → {s s' : Stmt} → StmtInset Spelled σ k step s s' →
    StmtTells D V σ k step s s'
  | _, _, _, _, _, .expression he, _, _, _, hr, hok, _ =>
    (he.tells hV hr.views hok.passed.visited hr.clean).imp fun _ => .expression
  | _, _, _, _, _, .var hσ hfree hvalue, _, _, _, hr, hok, hstep =>
    tells_var hV hσ hfree hvalue hr hok hstep
  | _, _, _, _, _, .block hbody, _, _, _, hr, hok, hstep =>
    have hinner := hbody.tells hV hr.openScope hok.block hstep.enter
    ⟨hinner.clean, fun D' hnoted => .block (hinner.placed D' hnoted)⟩
  | _, _, _, _, _, .conditional hc ht, _, _, _, hr, hok, hstep =>
    tells_conditional hV hc (ht.tells hV) hr hok hstep
  | _, _, _, _, _, .alternative hc ht he, _, _, _, hr, hok, hstep =>
    tells_alternative hV hc ht (ht.tells hV) (he.tells hV) hr hok hstep
  | _, _, _, _, _, .loop hc hb hi, _, _, _, hr, hok, hstep =>
    tells_loop hV hc hb (hb.tells hV) hi hr hok hstep
  | _, _, _, _, _, .function hσ hfree hd, _, _, _, hr, hok, hstep =>
    tells_function hσ hfree hd (hd.tells hV) hr hok hstep
  | _, _, _, _, _, .returning hvalue, _, _, _, hr, hok, hstep =>
    tells_returning hV hvalue hr hok hstep
  | _, _, _, _, _, .breaking, _, _, _, hr, hok, hstep => tells_breaking hr hok hstep
  | _, _, _, _, _, .continuing, _, _, _, hr, hok, hstep => tells_continuing hr hok hstep
  | _, _, _, _, _, .class hσ hfree hplace hmethods, _, _, _, hr, hok, hstep =>
    tells_class hV hσ hfree hplace (hmethods.tells hV) hr hok hstep
  | _, _, _, _, _, .unrolled hloop, _, _, _, hr, hok, _ =>
    (hloop.tells hV hr hok).imp fun _ => .unrolled
  | _, _, _, _, _, .boxed hloop, _, _, _, hr, hok, _ =>
    have hinner := hloop.tells hV hr.further hok
    ⟨hinner.clean, fun D' hnoted => .boxed (hinner.placed D' fun v hv =>
      hnoted v (List.mem_append_left _ hv))⟩
  | _, _, _, _, _, .stepping hi, _, _, _, hr, hok, hstep => tells_stepping hi hr hok hstep

theorem LoopInset.tells (hV : ∀ v, V v → v.Recorded D ∧ True) : {σ : Inset} → {s s' : Stmt} →
    LoopInset Spelled σ s s' → {r r' : Resolution} → Beside σ r r' → StmtOk V r s →
    Tells (fun D' => LoopInset (InPlace D D') σ s s') (s'.resolve r') (s'.visits r')
  | _, _, _, .mk hc hb hi, _, _, hr, hok => tells_unrolled hV hc hb (hb.tells hV) hi hr hok

theorem StmtEachInset.tells (hV : ∀ v, V v → v.Recorded D ∧ True) : {σ : Inset} → {k : Nat} →
    {step : Option Expr} → {ss ss' : List Stmt} → StmtEachInset Spelled σ k step ss ss' →
    {r r' r₀ : Resolution} → Beside σ r r' → StmtEachOk V r ss → InBody D step r₀ k r →
    Tells (fun D' => StmtEachInset (InPlace D D') σ k step ss ss') (Stmt.resolveEach ss' r')
      (Stmt.visitsEach ss' r')
  | _, _, _, _, _, .nil, _, _, _, hr, _, _ => ⟨hr.clean, fun _ _ => .nil⟩
  | _, _, _, _, _, .cons hs hrest, _, _, _, hr, hok, hstep =>
    have hone := hs.tells hV hr hok.cons.1 hstep
    have hmore := hrest.tells hV (hr.behind hs hok.shaped.1 hone.clean) hok.cons.2
      (hstep.behind hs hok.shaped.1)
    (hone.andThen hmore).imp fun _ ⟨hone, hmore⟩ => .cons hone hmore

theorem FunctionInset.tells (hV : ∀ v, V v → v.Recorded D ∧ True) : {σ : Inset} →
    {d d' : FunctionDecl} → FunctionInset Spelled σ d d' → FunctionTells D V σ d d'
  | _, _, _, .mk hbody, _, _, routine, hr, hok =>
    have hclean := (Stmt.walkedEach _ _).before hok.body.passed.clean
    have hinner := hbody.tells hV (hr.enterRoutine routine hok.isName hclean) hok.body (.none D 0 _)
    ⟨hinner.clean, fun D' hnoted => .mk (hinner.placed D' hnoted)⟩

theorem FunctionEachInset.tells (hV : ∀ v, V v → v.Recorded D ∧ True) : {σ : Inset} →
    {ds ds' : List FunctionDecl} → FunctionEachInset Spelled σ ds ds' → {r r' : Resolution} →
    Beside σ r r' → MethodsOk V r ds →
    Tells (fun D' => FunctionEachInset (InPlace D D') σ ds ds') (FunctionDecl.resolveMethods ds' r')
      (FunctionDecl.visitsMethods ds' r')
  | _, _, _, .nil, _, _, hr, _ => ⟨hr.clean, fun _ _ => .nil⟩
  | _, _, _, .cons hd hrest, _, _, hr, hok =>
    tells_method hd (hd.tells hV) (hrest.tells hV) hr hok

end

end Lox
