import Lox.Proofs.Execution.Parts
import Lox.Proofs.Inset.Machine

/-!
# Scopes that the second tree has besides

While two trees are resolved of which the second one has further scopes, these scopes are
empty, and between them the scopes of both walks are the same.  So each name is found where
the inset says.  No further scope comes between the scope of `this` and that of `super`.
-/

namespace Lox

namespace Resolution

/-- The second list of scopes is the first one, but for further scopes that declare nothing. -/
inductive ScopesInset : Inset → List Scope → List Scope → Prop where
  | top : ScopesInset .flush [] []
  | inner {σ : Inset} {scope : Scope} {outer outer' : List Scope} :
      scope.contains "super" = false → ScopesInset σ outer outer' →
      ScopesInset σ.enter (scope :: outer) (scope :: outer')
  | derived {σ : Inset} {scope : Scope} {outer outer' : List Scope} :
      scope.contains "super" = false → ScopesInset σ outer outer' →
      ScopesInset σ.enter.enter (scope :: superScope :: outer) (scope :: superScope :: outer')
  | further {σ : Inset} {scopes scopes' : List Scope} :
      ScopesInset σ scopes scopes' → ScopesInset σ.further scopes (.empty :: scopes')

variable {σ : Inset} {scope : Scope} {scopes scopes' outer outer' : List Scope}
  {r r' r₁ r₁' : Resolution} {name : String}

theorem distance?_enter (h : distance? outer' name = (distance? outer name).map σ) :
    distance? (scope :: outer') name = (distance? (scope :: outer) name).map σ.enter := by
  rw [distance?_cons, distance?_cons]
  split
  · rfl
  · rw [h, Option.map_map, Option.map_map]
    rfl

theorem distance?_further (h : distance? scopes' name = (distance? scopes name).map σ) :
    distance? (.empty :: scopes') name = (distance? scopes name).map σ.further := by
  rw [distance?_cons, h, Option.map_map]
  rfl

/-- Each name is found where the inset says. -/
theorem ScopesInset.distance? (h : ScopesInset σ scopes scopes') (name : String) :
    Resolution.distance? scopes' name = (Resolution.distance? scopes name).map σ := by
  induction h with
  | top => rfl
  | inner _ _ ih => exact distance?_enter ih
  | derived _ _ ih => exact distance?_enter (distance?_enter ih)
  | further _ ih => exact distance?_further ih

theorem distance?_of_not_contains (h : scope.contains name = false) :
    distance? (scope :: outer) name = (distance? outer name).map (· + 1) := by
  rw [distance?_cons, h]
  rfl

/-- Around the scope of `this`, that of `super` is the next one on both sides. -/
theorem ScopesInset.super (h : ScopesInset σ scopes scopes') :
    ∀ d, Resolution.distance? scopes "super" = some d →
      ∃ e, d = e + 1 ∧ σ (e + 1) = σ e + 1 := by
  induction h with
  | top =>
    intro d hd
    cases hd
  | inner hscope _ ih =>
    intro d hd
    rw [distance?_of_not_contains hscope] at hd
    obtain ⟨d, hfound, rfl⟩ := Option.map_eq_some_iff.mp hd
    obtain ⟨e, rfl, he⟩ := ih d hfound
    exact ⟨e + 1, rfl, congrArg (· + 1) he⟩
  | derived hscope _ _ =>
    intro d hd
    rw [distance?_of_not_contains hscope] at hd
    cases hd
    exact ⟨0, rfl, rfl⟩
  | further _ ih =>
    intro d hd
    obtain ⟨e, rfl, he⟩ := ih d hd
    exact ⟨e, rfl, congrArg (· + 1) he⟩

theorem contains_insert_of_ne {readable : Bool} {other : String} (hne : other ≠ name)
    (scope : Scope) : (scope.insert name readable).contains other = scope.contains other := by
  rw [Bindings.contains, Bindings.find?_insert, if_neg hne]
  rfl

/-- A name can be declared where no further scope is innermost. -/
theorem ScopesInset.mark (h : ScopesInset σ r.scopes r'.scopes) (hσ : σ 0 = 0)
    (hname : name ≠ "super") (readable : Bool) :
    ScopesInset σ (r.mark name readable).scopes (r'.mark name readable).scopes := by
  rw [scopes_mark, scopes_mark]
  generalize r.scopes = scopes at h
  generalize r'.scopes = scopes' at h
  cases h with
  | top => exact .top
  | inner hscope houter =>
    exact .inner ((contains_insert_of_ne hname.symm _).trans hscope) houter
  | derived hscope houter =>
    exact .derived ((contains_insert_of_ne hname.symm _).trans hscope) houter
  | further => cases hσ

theorem ScopesInset.declaresInnermost (h : ScopesInset σ r.scopes r'.scopes) (hσ : σ 0 = 0)
    (name : String) : r'.declaresInnermost name = r.declaresInnermost name := by
  unfold Resolution.declaresInnermost
  generalize r.scopes = scopes at h
  generalize r'.scopes = scopes' at h
  cases h with
  | top | inner | derived => rfl
  | further => cases hσ

/-! ### What expressions see -/

/-- Some names, looked up from a first state and from a second one. -/
structure Views (N : String → Prop) (σ : Inset) (r r' : Resolution) : Prop where
  distance : ∀ name, N name → distance? r'.scopes name = (distance? r.scopes name).map σ
  super : ∀ d, N "super" → distance? r.scopes "super" = some d → σ (d - 1) = σ d - 1
  readable : ∀ name, r.readFault? name = none → r'.readFault? name = none
  enclosingClass : r'.enclosingClass = r.enclosingClass

theorem readFault?_of_sameScopes (h : SameScopes r r₁) (name : String) :
    r₁.readFault? name = r.readFault? name := by
  unfold readFault?
  rw [h.scopes, h.initializing?]

theorem Views.of_sameScopes {N : String → Prop} (h : Views N σ r r') (hleft : SameScopes r r₁)
    (hright : SameScopes r' r₁') : Views N σ r₁ r₁' := by
  refine ⟨?_, ?_, ?_, ?_⟩
  · rw [hleft.scopes, hright.scopes]
    exact h.distance
  · rw [hleft.scopes]
    exact h.super
  · intro name hname
    rw [readFault?_of_sameScopes hleft] at hname
    rw [readFault?_of_sameScopes hright]
    exact h.readable name hname
  · rw [hleft.enclosingClass, hright.enclosingClass]
    exact h.enclosingClass

/-- Directly inside of a further scope every name can be read. -/
theorem readFault?_openScope (r : Resolution) (name : String) :
    r.openScope.readFault? name = none := rfl

theorem ScopesInset.views (h : ScopesInset σ r.scopes r'.scopes)
    (hinitializing : r'.initializing? = r.initializing?)
    (hclass : r'.enclosingClass = r.enclosingClass) : Views (fun _ => True) σ r r' := by
  refine ⟨fun name _ => h.distance? name, ?_, ?_, hclass⟩
  · intro d _ hd
    obtain ⟨e, rfl, he⟩ := h.super d hd
    rw [he]
    rfl
  · intro name hname
    unfold Resolution.readFault? at hname ⊢
    rw [hinitializing]
    generalize r.scopes = scopes at h hname
    generalize r'.scopes = scopes' at h
    cases h with
    | top | inner | derived => exact hname
    | further => rfl

/-! ### Where statements stand -/

/-- The states of two walks at statements that correspond; the second walk found no error. -/
structure Beside (σ : Inset) (r r' : Resolution) : Prop where
  scopes : ScopesInset σ r.scopes r'.scopes
  routine : r'.routine = r.routine
  enclosingClass : r'.enclosingClass = r.enclosingClass
  loopDepth : r'.loopDepth = r.loopDepth
  initializing? : r.initializing? = none
  initializing?' : r'.initializing? = none
  clean : r'.errors = []

theorem beside_initial : Beside .flush {} {} := ⟨.top, rfl, rfl, rfl, rfl, rfl, rfl⟩

theorem Beside.views (h : Beside σ r r') : Views (fun _ => True) σ r r' :=
  h.scopes.views (h.initializing?'.trans h.initializing?.symm) h.enclosingClass

/-- Steps that leave the scopes as they are. -/
theorem Beside.of_sameScopes (h : Beside σ r r') (hleft : SameScopes r r₁)
    (hright : SameScopes r' r₁') (hclean : r₁'.errors = []) : Beside σ r₁ r₁' := by
  refine ⟨?_, ?_, ?_, ?_, ?_, ?_, hclean⟩
  · rw [hleft.scopes, hright.scopes]
    exact h.scopes
  · rw [hleft.routine, hright.routine, h.routine]
  · rw [hleft.enclosingClass, hright.enclosingClass, h.enclosingClass]
  · rw [hleft.loopDepth, hright.loopDepth, h.loopDepth]
  · rw [hleft.initializing?, h.initializing?]
  · rw [hright.initializing?, h.initializing?']

/-- Steps that change the innermost scope at most. -/
theorem Beside.of_sameOuter (h : Beside σ r r') (hleft : SameOuter r r₁)
    (hright : SameOuter r' r₁') (hscopes : ScopesInset σ r₁.scopes r₁'.scopes)
    (hclean : r₁'.errors = []) : Beside σ r₁ r₁' :=
  ⟨hscopes, by rw [hleft.routine, hright.routine, h.routine],
    by rw [hleft.enclosingClass, hright.enclosingClass, h.enclosingClass],
    by rw [hleft.loopDepth, hright.loopDepth, h.loopDepth],
    hleft.initializing? h.initializing?, hright.initializing? h.initializing?', hclean⟩

theorem Beside.openScope (h : Beside σ r r') : Beside σ.enter r.openScope r'.openScope :=
  ⟨.inner rfl h.scopes, h.routine, h.enclosingClass, h.loopDepth, h.initializing?,
    h.initializing?', h.clean⟩

/-- Only the second walk enters a scope. -/
theorem Beside.further (h : Beside σ r r') : Beside σ.further r r'.openScope :=
  ⟨.further h.scopes, h.routine, h.enclosingClass, h.loopDepth, h.initializing?,
    h.initializing?', h.clean⟩

theorem Beside.enterLoop (h : Beside σ r r') : Beside σ r.enterLoop r'.enterLoop :=
  ⟨h.scopes, h.routine, h.enclosingClass, congrArg (· + 1) h.loopDepth, h.initializing?,
    h.initializing?', h.clean⟩

/-- A name is declared for both walks, or reported for both. -/
theorem ScopesInset.errors_declare (h : ScopesInset σ r.scopes r'.scopes) (hσ : σ 0 = 0)
    {token : Token} (hclean' : r'.errors = []) (hclean : (r.declare token).errors = []) :
    (r'.declare token).errors = [] := by
  unfold Resolution.declare at hclean ⊢
  rw [h.declaresInnermost hσ, not_of_reportIf hclean]
  change (r'.mark token.lexeme false).errors = []
  unfold Resolution.mark
  cases r'.scopes with
  | nil => exact hclean'
  | cons => exact hclean'

theorem errors_mark (name : String) (readable : Bool) (r : Resolution) :
    (r.mark name readable).errors = r.errors := by
  unfold mark
  cases r.scopes <;> rfl

theorem Beside.declare_define (h : Beside σ r r') (hσ : σ 0 = 0) {token : Token}
    (htoken : token.lexeme ≠ "super") (hclean : (r.declare token).errors = []) :
    Beside σ ((r.declare token).define token) ((r'.declare token).define token) := by
  apply h.of_sameOuter ((sameOuter_declare token r).trans (sameOuter_define token _))
    ((sameOuter_declare token r').trans (sameOuter_define token _))
  · rw [scopes_define_declare (.refl _), scopes_define_declare (.refl _)]
    exact h.scopes.mark hσ htoken true
  · unfold Resolution.define
    rw [errors_mark]
    exact h.scopes.errors_declare hσ h.clean hclean

theorem Beside.declareParameters (h : Beside σ r r') (hσ : σ 0 = 0) {parameters : List Token}
    (hparameters : ∀ t ∈ parameters, t.lexeme ≠ "super")
    (hclean : (r.declareParameters parameters).errors = []) :
    Beside σ (r.declareParameters parameters) (r'.declareParameters parameters) := by
  induction parameters generalizing r r' with
  | nil => exact h
  | cons parameter parameters ih =>
    have hrest := (walked_declareParameters parameters
      ((r.declare parameter).define parameter)).before hclean
    have hone := (walked_define parameter (r.declare parameter)).before hrest
    exact ih (h.declare_define hσ (hparameters parameter List.mem_cons_self) hone)
      (fun t ht => hparameters t (List.mem_cons_of_mem _ ht)) hclean

end Resolution

end Lox
