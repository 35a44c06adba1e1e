import Lox.Evaluator
import Lox.Proofs.Execution.Lookup

/-!
# Making classes

The methods of a class see the frame around that of `this`, which stands for `super`
if there is a superclass, and are not bound to an instance yet.
-/

namespace Lox

open Resolution

variable {V : Visit → Prop} {rules : Rules} {m : Machine} {r : Resolution}
  {scopes : List Scope}

namespace Exec

def superclassOf (rules : Rules) : Option Occurrence → Exec (Option Class)
  | none => return none
  | some place => some <$> (readVariable rules place >>= (expectClass · place.line))

/-- Makes a class whose superclass is there, and binds its name. -/
def finishClass (name : Token) (methods : List FunctionDecl) (parent : Option Class) :
    Exec Unit := do
  let frame ← methodFrame parent
  let own ← makeMethods frame methods
  let layer : ClassLayer := ⟨← newIdentity, name.lexeme, own⟩
  define name.lexeme (.class ⟨layer, (parent.map Class.chain).getD []⟩)

/-- The methods of further declarations, beside those that were made already. -/
def addMethods (frame : FrameId) (declarations : List FunctionDecl) (methods : Bindings Function) :
    Exec (Bindings Function) :=
  declarations.foldlM (fun methods declaration => do
    let method ← newFunction declaration frame declaration.isInitializer
    return methods.insert declaration.name.lexeme method) methods

theorem makeMethods_eq (frame : FrameId) (declarations : List FunctionDecl) :
    makeMethods frame declarations = addMethods frame declarations .empty := rfl

theorem addMethods_cons (frame : FrameId) (d : FunctionDecl) (rest : List FunctionDecl)
    (methods : Bindings Function) :
    addMethods frame (d :: rest) methods = newFunction d frame d.isInitializer >>= fun method =>
      addMethods frame rest (methods.insert d.name.lexeme method) := by
  simp only [addMethods, List.foldlM_cons, bind_assoc, pure_bind]

/-- Making a function takes the next number and cannot fail. -/
theorem addMethods_cons_run (frame : FrameId) (d : FunctionDecl) (rest : List FunctionDecl)
    (methods : Bindings Function) (m : Machine) :
    addMethods frame (d :: rest) methods m =
      addMethods frame rest
        (methods.insert d.name.lexeme ⟨m.nextIdentity, d, frame, d.isInitializer⟩)
        { m with nextIdentity := m.nextIdentity + 1 } := by
  rw [addMethods_cons]
  rfl

/-- A class is made in two steps. -/
theorem declareClass_eq (rules : Rules) (name : Token) (superclass : Option Occurrence)
    (methods : List FunctionDecl) :
    declareClass rules name superclass methods = (do
      define name.lexeme .nil
      let parent ← superclassOf rules superclass
      finishClass name methods parent) := by
  cases superclass <;> rfl

end Exec

/-- Methods see the frame that they are made in. -/
theorem Keeps.addMethods {frame : Nat} {outer : List Scope} {inherited : List ClassLayer}
    {ds : List FunctionDecl} {methods : Bindings Function} (h : Sound V m)
    (hds : MethodsOk V r ds) (hscopes : r.scopes = thisScope :: outer)
    (hmirrors : Mirrors m.frames outer frame)
    (hsuper : r.enclosingClass = .derived → StandsForSuper m.frames inherited frame)
    (hmethods : ∀ name f, methods.find? name = some f → MethodOk V m.frames inherited f) :
    Keeps V m
      (fun all m' => ∀ name f, all.find? name = some f → MethodOk V m'.frames inherited f)
      (Exec.addMethods frame ds methods m) := by
  induction ds generalizing m methods r with
  | nil => exact pure h hmethods
  | cons d ds ih =>
    obtain ⟨⟨routine, hroutine, hkind⟩, r', hscopes', hclass', hrest⟩ := hds.cons
    rw [Exec.addMethods_cons]
    apply bind (newFunction h d frame d.isInitializer)
    rintro f m₁ hafter ⟨hdeclaration, hclosure, hinitializer, -⟩
    have hsuper₁ : r.enclosingClass = .derived → StandsForSuper m₁.frames inherited frame :=
      fun hderived => (hsuper hderived).grow hafter.grows
    apply ih hafter.sound hrest (hscopes'.trans hscopes) (hmirrors.grow hafter.grows)
      (hclass' ▸ hsuper₁)
    intro name f' hf'
    rw [Bindings.find?_insert] at hf'
    split at hf'
    · cases hf'
      refine ⟨routine, r, outer, hdeclaration ▸ hroutine, hscopes, ?_, ?_, ?_⟩
      · rw [hclosure]
        exact hmirrors.grow hafter.grows
      · rw [hinitializer]
        exact hkind
      · rw [hclosure]
        exact hsuper₁
    · exact (hmethods name f' hf').mono (fun _ hv => hv) hafter.grows

def aroundThis (derived : Bool) (scopes : List Scope) : List Scope :=
  if derived then superScope :: scopes else scopes

theorem Keeps.methodFrame {superclass : Option Class} (h : Sound V m) (hhere : Here m scopes)
    (hparent : ∀ parent ∈ superclass, ClassOk V m.frames parent) :
    Keeps V m (fun frame m' => Mirrors m'.frames (aroundThis superclass.isSome scopes) frame ∧
        ∀ parent ∈ superclass, StandsForSuper m'.frames parent.chain frame)
      (Exec.methodFrame superclass m) := by
  unfold Exec.methodFrame
  -- Without a superclass the methods stand where the class does.
  cases superclass with
  | none =>
    apply bind (get h)
    rintro found m' - ⟨rfl, rfl⟩
    exact pure h ⟨hhere, fun parent hnone => by cases hnone⟩
  -- A superclass is bound to `super` in a frame of its own.
  | some parent =>
    apply bind (newInnerFrame h)
    rintro frame m₁ hafter₁ ⟨rfl, hframes₁⟩
    have hfresh : ∀ v, m₁.frames.findIn? m.frames.next "super" ≠ some v := by
      intro v hv
      rw [hframes₁, Frames.findIn?_child_next] at hv
      cases hv
    have hvalue : ValueOk V m₁.frames (.class parent) := (hparent parent rfl).grow hafter₁.grows
    apply bind (defineIn hafter₁.sound (.inr hfresh) hvalue)
    intro _ m₂ hafter₂ hframes₂
    apply pure hafter₂.sound
    have hnext : m.frames.next < m₁.frames.size := hframes₁ ▸ Frames.next_lt_child _ _
    have hsuper : m₂.frames.findIn? m.frames.next "super" = some (.class parent) := by
      rw [hframes₂]
      exact Frames.findIn?_define_self hnext _ _
    have houter := Frames.enclosing?_child_next (hhere.lt h.global)
    rw [← hframes₁] at houter
    refine ⟨⟨⟨?_, ?_, fun _ => ⟨parent, hsuper⟩⟩, m.current, hafter₂.grows.enclosing _ _ houter,
      hhere.grow (hafter₁.grows.trans hafter₂.grows)⟩, ?_⟩
    · -- The scope of `super` has this one name.
      intro name hname
      rw [superScope, Bindings.find?_insert] at hname
      split at hname
      · rename_i heq
        subst heq
        exact ⟨_, hsuper⟩
      · cases hname
    · intro hthis
      cases hthis
    · rintro _ ⟨⟩
      exact ⟨parent, hsuper, rfl⟩

theorem Keeps.expectClass (h : Sound V m) {value : Value} (hvalue : ValueOk V m.frames value)
    (line : Nat) :
    Keeps V m (fun c m' => ClassOk V m'.frames c) (Exec.expectClass value line m) := by
  unfold Exec.expectClass
  cases value with
  | «class» parent => exact pure h hvalue
  | _ => exact fail h (by trivial) line

/-- Binding the name that a statement declares makes it readable in the scope. -/
theorem Here.define (h : Here m r.scopes) (hm : Sound V m) {name : String} (hname : IsName name)
    {m' : Machine} {value : Value} (hafter : After V m m')
    (hframes : m'.frames = m.frames.define m.current name value) :
    Here m' (r.mark name true).scopes := by
  rw [Here, hframes, hafter.current]
  exact Mirrors.define h hm.global hname value

theorem Keeps.superclassOf {superclass : Option Occurrence} (h : Sound V m)
    (hhere : Here m scopes) (hplace : ∀ place ∈ superclass, PlaceOk V scopes .read place) :
    Keeps V m (fun parent m' => parent.isSome = superclass.isSome ∧
      ∀ c ∈ parent, ClassOk V m'.frames c) (Exec.superclassOf rules superclass m) := by
  cases superclass with
  | none => exact pure h ⟨rfl, fun c hc => by cases hc⟩
  | some place =>
    apply map
    apply bind (readVariable rules h (hplace place rfl) hhere)
    intro value m₁ hafter hvalue
    apply weaken (expectClass hafter.sound hvalue place.line)
    intro c m₂ _ hc
    refine ⟨rfl, ?_⟩
    rintro _ ⟨⟩
    exact hc

/-- A class has its own methods and those of its superclass. -/
theorem ClassOk.of_layer {frames : Frames Value} {layer : ClassLayer} {parent : Option Class}
    (hown : ∀ name f, layer.methods.find? name = some f →
      MethodOk V frames ((parent.map Class.chain).getD []) f)
    (hparent : ∀ c ∈ parent, ClassOk V frames c) :
    ClassOk V frames ⟨layer, (parent.map Class.chain).getD []⟩ := by
  intro before other inherited hchain name f hf
  rcases List.cons_eq_append_iff.mp hchain with ⟨-, hlayer⟩ | ⟨before', -, hrest⟩
  · rw [List.cons.injEq] at hlayer
    obtain ⟨rfl, rfl⟩ := hlayer
    exact hown name f hf
  · cases parent with
    | none => simp at hrest
    | some c => exact hparent c rfl before' other inherited hrest name f hf

/-- A class inherits from its superclass and binds its own methods. -/
theorem Keeps.finishClass {name : Token} {parent : Option Class} {methods : List FunctionDecl}
    (h : Sound V m) (hhere : Here m scopes) (hname : IsName name.lexeme)
    (hparent : ∀ c ∈ parent, ClassOk V m.frames c) (hmethods : MethodsOk V r methods)
    (hscopes : r.scopes = thisScope :: aroundThis parent.isSome scopes)
    (hclass : r.enclosingClass = .derived → parent.isSome = true) :
    Keeps V m (fun _ _ => True) (Exec.finishClass name methods parent m) := by
  unfold Exec.finishClass
  apply bind (methodFrame h hhere hparent)
  rintro frame m₁ hafter₁ ⟨hframe, hsuper⟩
  have hstands : r.enclosingClass = .derived →
      StandsForSuper m₁.frames ((parent.map Class.chain).getD []) frame := by
    intro hderived
    obtain ⟨c, rfl⟩ := Option.isSome_iff_exists.mp (hclass hderived)
    exact hsuper c rfl
  apply bind (addMethods hafter₁.sound hmethods hscopes hframe hstands fun n f hf => by cases hf)
  intro own m₂ hafter₂ hown
  apply bind (newIdentity hafter₂.sound)
  intro identity m₃ hafter₃ _
  have hgrows := hafter₂.grows.trans hafter₃.grows
  have hvalue : ClassOk V m₃.frames
      ⟨⟨identity, name.lexeme, own⟩, (parent.map Class.chain).getD []⟩ :=
    ClassOk.of_layer (fun n f hf => (hown n f hf).mono (fun _ hv => hv) hafter₃.grows)
      fun c hc => (hparent c hc).grow (hafter₁.grows.trans hgrows)
  exact weaken (define hafter₃.sound hname hvalue) fun _ _ _ _ => trivial

/-- Methods see the scope of `this`, around it that of `super` if there is a superclass. -/
theorem scopes_methods (name : Token) (superclass : Option Occurrence) (r : Resolution) :
    ((r.enterClass name superclass).enterClassBody superclass.isSome).scopes =
      thisScope :: aroundThis superclass.isSome (r.mark name.lexeme true).scopes := by
  rw [scopes_enterClassBody, scopes_enterClass, aroundThis]

theorem isSome_of_derived {name : Token} {superclass : Option Occurrence} {r : Resolution}
    (h : ((r.enterClass name superclass).enterClassBody superclass.isSome).enclosingClass =
      .derived) : superclass.isSome = true := by
  rw [enclosingClass_enterClassBody] at h
  split at h
  · assumption
  · cases h

theorem Keeps.declareClass {name : Token} {superclass : Option Occurrence}
    {methods : List FunctionDecl} (h : Sound V m) (hhere : Here m r.scopes)
    (hs : StmtOk V r (.class name superclass methods)) :
    Keeps V m (fun _ m' => Here m' (r.mark name.lexeme true).scopes)
      (Exec.declareClass rules name superclass methods m) := by
  have hname := hs.shaped.1
  rw [Exec.declareClass_eq]
  apply bind (define h hname (by trivial))
  intro _ m₁ hafter₁ hframes₁
  have hhere₁ := hhere.define h hname hafter₁ hframes₁
  have hplace : ∀ place ∈ superclass, PlaceOk V (r.mark name.lexeme true).scopes .read place := by
    intro place hsome
    cases hsome
    exact hs.superclass
  apply bind (superclassOf hafter₁.sound hhere₁ hplace)
  rintro parent m₂ hafter₂ ⟨hsome, hclass⟩
  have hscopes : ((r.enterClass name superclass).enterClassBody superclass.isSome).scopes =
      thisScope :: aroundThis parent.isSome (r.mark name.lexeme true).scopes := by
    rw [scopes_methods, hsome]
  apply weaken (finishClass hafter₂.sound (hhere₁.after hafter₂) hname hclass hs.methods hscopes
    fun hderived => hsome.trans (isSome_of_derived hderived))
  intro _ m₃ hafter₃ _
  exact hhere₁.after (hafter₂.trans hafter₃)

end Lox
