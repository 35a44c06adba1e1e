import Lox.Exec
import Lox.Proofs.Frames.Mirroring
import Lox.Proofs.Resolution.Distances

/-!
# Sound machines

A machine is sound if every function in it was resolved without errors in scopes that
the frames around its body mirror.  `V` holds of the visits of all programs of the
session: the distances of the machine are those of these visits.
-/

namespace Lox

open Resolution

/-- The machine has the distance of a visit, which is one that the grammar allows. -/
structure Visit.Recorded (distances : Distances) (v : Visit) : Prop where
  distance : distances[v.place.id]? = v.distance?
  faultless : v.Faultless
  fits : v.kind.Fits v.place

/-! ### Values -/

section

variable (V : Visit → Prop)

/-- A walk that came to this state without errors, and whose visits are of the session. -/
structure Passed (r : Resolution) (visits : List Visit) : Prop where
  clean : r.errors = []
  visited : ∀ v ∈ visits, V v

/-- A function that was resolved without errors in this state. -/
structure RoutineOk (routine : EnclosingRoutine) (d : FunctionDecl) (r : Resolution) : Prop where
  passed : Passed V (d.resolve routine r) (d.visits routine r)
  shaped : d.Shaped
  settled : Settled r
  inside : routine ≠ .topLevel

/-- A function whose closure mirrors the scopes that it was resolved in. -/
structure FunctionOk (frames : Frames Value) (f : Function) : Prop where
  routine : ∃ routine r, RoutineOk V routine f.declaration r ∧ Mirrors frames r.scopes f.closure ∧
    (f.isInitializer = true → routine = .initializer)
  initializer : f.isInitializer = true →
    ∃ owner, frames.findIn? f.closure "this" = some (.object owner)

/-- A frame stands for the superclass whose layers are the inherited ones. -/
def StandsForSuper (frames : Frames Value) (inherited : List ClassLayer) (frame : Nat) : Prop :=
  ∃ parent, frames.findIn? frame "super" = some (.class parent) ∧ parent.chain = inherited

/--
A method that was not bound to an instance yet lacks the frame of `this`.  The frame
that it sees stands for the superclass, whose layers are the inherited ones.
-/
def MethodOk (frames : Frames Value) (inherited : List ClassLayer) (f : Function) : Prop :=
  ∃ routine r outer, RoutineOk V routine f.declaration r ∧ r.scopes = thisScope :: outer ∧
    Mirrors frames outer f.closure ∧ (f.isInitializer = true → routine = .initializer) ∧
    (r.enclosingClass = .derived → StandsForSuper frames inherited f.closure)

/-- A class with methods that can be bound. -/
def ClassOk (frames : Frames Value) (c : Class) : Prop :=
  ∀ before layer inherited, c.chain = before ++ layer :: inherited →
    ∀ name f, layer.methods.find? name = some f → MethodOk V frames inherited f

def ValueOk (frames : Frames Value) : Value → Prop
  | .function f => FunctionOk V frames f
  | .class c => ClassOk V frames c
  | .object owner => ClassOk V frames owner.cls
  | _ => True

end

variable {V V' : Visit → Prop} {frames frames' : Frames Value}

theorem Passed.mono (hV : ∀ v, V v → V' v) {r : Resolution} {visits : List Visit}
    (h : Passed V r visits) : Passed V' r visits :=
  ⟨h.clean, fun v hv => hV v (h.visited v hv)⟩

theorem RoutineOk.mono (hV : ∀ v, V v → V' v) {routine : EnclosingRoutine} {d : FunctionDecl}
    {r : Resolution} (h : RoutineOk V routine d r) : RoutineOk V' routine d r :=
  ⟨h.passed.mono hV, h.shaped, h.settled, h.inside⟩

theorem FunctionOk.mono (hV : ∀ v, V v → V' v) (hgrows : Grows frames frames') {f : Function}
    (h : FunctionOk V frames f) : FunctionOk V' frames' f := by
  constructor
  · obtain ⟨routine, r, hroutine, hmirrors, hkind⟩ := h.routine
    exact ⟨routine, r, hroutine.mono hV, hmirrors.grow hgrows, hkind⟩
  · intro hinitializer
    obtain ⟨owner, howner⟩ := h.initializer hinitializer
    exact ⟨owner, hgrows.special _ _ _ not_isName_this howner⟩

theorem StandsForSuper.grow {inherited : List ClassLayer}
    {frame : Nat} (h : StandsForSuper frames inherited frame) (hgrows : Grows frames frames') :
    StandsForSuper frames' inherited frame := by
  obtain ⟨parent, hparent, hchain⟩ := h
  exact ⟨parent, hgrows.special _ _ _ not_isName_super hparent, hchain⟩

theorem MethodOk.mono (hV : ∀ v, V v → V' v) (hgrows : Grows frames frames')
    {inherited : List ClassLayer} {f : Function} (h : MethodOk V frames inherited f) :
    MethodOk V' frames' inherited f := by
  obtain ⟨routine, r, outer, hroutine, hscopes, hmirrors, hkind, hsuper⟩ := h
  exact ⟨routine, r, outer, hroutine.mono hV, hscopes, hmirrors.grow hgrows, hkind,
    fun hderived => (hsuper hderived).grow hgrows⟩

theorem ClassOk.mono (hV : ∀ v, V v → V' v) (hgrows : Grows frames frames') {c : Class}
    (h : ClassOk V frames c) : ClassOk V' frames' c := by
  intro before layer inherited hchain name f hf
  exact (h before layer inherited hchain name f hf).mono hV hgrows

theorem ValueOk.mono (hV : ∀ v, V v → V' v) (hgrows : Grows frames frames') {value : Value}
    (h : ValueOk V frames value) : ValueOk V' frames' value := by
  cases value with
  | function f => exact FunctionOk.mono hV hgrows h
  | «class» c => exact ClassOk.mono hV hgrows h
  | object owner => exact ClassOk.mono hV hgrows h
  | _ => trivial

theorem ValueOk.grow (hgrows : Grows frames frames') {value : Value}
    (h : ValueOk V frames value) : ValueOk V frames' value :=
  h.mono (fun _ hv => hv) hgrows

theorem ClassOk.grow (hgrows : Grows frames frames') {c : Class}
    (h : ClassOk V frames c) : ClassOk V frames' c :=
  h.mono (fun _ hv => hv) hgrows

theorem ClassOk.findMethod? {c : Class} (h : ClassOk V frames c) {name : String} {f : Function}
    (hf : c.findMethod? name = some f) : ∃ inherited, MethodOk V frames inherited f := by
  unfold Class.findMethod? at hf
  obtain ⟨before, layer, inherited, hchain, hfind, -⟩ := List.findSome?_eq_some_iff.mp hf
  exact ⟨inherited, h before layer inherited hchain name f hfind⟩

/-! ### Machines -/

/-- All values that the machine holds are as they should be. -/
structure Sound (V : Visit → Prop) (m : Machine) : Prop where
  recorded : ∀ v, V v → v.Recorded m.distances
  global : 0 < m.frames.size
  bound : ∀ f name value, m.frames.findIn? f name = some value → ValueOk V m.frames value
  fields : ∀ (i : Nat) bindings, m.fields[i]? = some bindings →
    ∀ name value, bindings.find? name = some value → ValueOk V m.frames value

/-- What is the case behind a step, whether or not it succeeds. -/
structure After (V : Visit → Prop) (m m' : Machine) : Prop where
  sound : Sound V m'
  grows : Grows m.frames m'.frames
  current : m'.current = m.current
  distances : m'.distances = m.distances

variable {m m' m'' : Machine}

theorem Sound.after (h : Sound V m) : After V m m := ⟨h, .refl _, rfl, rfl⟩

theorem After.trans (h : After V m m') (h' : After V m' m'') : After V m m'' :=
  ⟨h'.sound, h.grows.trans h'.grows, h'.current.trans h.current, h'.distances.trans h.distances⟩

/-- The code at hand is run where its scopes are mirrored. -/
def Here (m : Machine) (scopes : List Scope) : Prop := Mirrors m.frames scopes m.current

def ValuesOk (V : Visit → Prop) (frames : Frames Value) (values : List Value) : Prop :=
  ∀ value ∈ values, ValueOk V frames value

theorem Here.after {scopes : List Scope} (h : Here m scopes) (hafter : After V m m') :
    Here m' scopes := by
  rw [Here, hafter.current]
  exact Mirrors.grow h hafter.grows

theorem ValuesOk.grow {values : List Value}
    (h : ValuesOk V frames values) (hgrows : Grows frames frames') : ValuesOk V frames' values :=
  fun value hvalue => (h value hvalue).grow hgrows

/-- Only the frames, the fields and the distances matter. -/
theorem Sound.of_eq (h : Sound V m) (hframes : m'.frames = m.frames)
    (hfields : m'.fields = m.fields) (hdistances : m'.distances = m.distances) : Sound V m' := by
  constructor
  · rw [hdistances]
    exact h.recorded
  · rw [hframes]
    exact h.global
  · rw [hframes]
    exact h.bound
  · rw [hframes, hfields]
    exact h.fields

theorem Sound.child (h : Sound V m) (outer : Nat) :
    After V m { m with frames := m.frames.child outer } := by
  have hgrows := Grows.child m.frames outer
  refine ⟨⟨h.recorded, ?_, ?_, ?_⟩, hgrows, rfl, rfl⟩
  · exact Nat.lt_of_lt_of_le h.global hgrows.size_le
  · intro f name value hfound
    have hold : m.frames.findIn? f name = some value := by
      rw [← Frames.findIn?_child m.frames outer f name]
      exact hfound
    exact (h.bound f name value hold).grow hgrows
  · intro i bindings hbindings name value hfound
    exact (h.fields i bindings hbindings name value hfound).grow hgrows

/-- Values that are as they should be where they are bound can be bound. -/
theorem Sound.define (h : Sound V m) {f : Nat} {name : String} {value : Value}
    (hname : IsName name ∨ ∀ v, m.frames.findIn? f name ≠ some v)
    (hvalue : ValueOk V (m.frames.define f name value) value) :
    After V m { m with frames := m.frames.define f name value } := by
  have hgrows := Grows.define m.frames f value hname
  refine ⟨⟨h.recorded, ?_, ?_, ?_⟩, hgrows, rfl, rfl⟩
  · exact Nat.lt_of_lt_of_le h.global hgrows.size_le
  · intro g other found hfound
    rcases Frames.findIn?_define_cases hfound with rfl | hold
    · exact hvalue
    · exact (h.bound g other found hold).grow hgrows
  · intro i bindings hbindings other found hfound
    exact (h.fields i bindings hbindings other found hfound).grow hgrows

section

variable {fields : Array (Bindings Value)} {P : Value → Prop}
  (hfields : ∀ (i : Nat) bindings, fields[i]? = some bindings →
    ∀ name value, bindings.find? name = some value → P value)

include hfields

theorem forall_fields_getD {i : Nat} {name : String} {value : Value}
    (hfound : (fields.getD i .empty).find? name = some value) : P value := by
  rw [Array.getD_eq_getD_getElem?] at hfound
  cases hbindings : fields[i]? with
  | none =>
    rw [hbindings] at hfound
    cases hfound
  | some bindings =>
    rw [hbindings] at hfound
    exact hfields i bindings hbindings name value hfound

/-- A new instance has no fields. -/
theorem forall_fields_push (i : Nat) (bindings : Bindings Value)
    (hbindings : (fields.push .empty)[i]? = some bindings) (name : String) (value : Value)
    (hfound : bindings.find? name = some value) : P value := by
  rw [Array.getElem?_push] at hbindings
  split at hbindings
  · cases hbindings
    cases hfound
  · exact hfields i bindings hbindings name value hfound

/-- A field that is set holds the new value. -/
theorem forall_fields_modify {id : Nat} {field : String} {new : Value} (hnew : P new) (i : Nat)
    (bindings : Bindings Value)
    (hbindings : (fields.modify id fun old => old.insert field new)[i]? = some bindings)
    (name : String) (value : Value) (hfound : bindings.find? name = some value) : P value := by
  rw [Array.getElem?_modify] at hbindings
  split at hbindings
  · cases hold : fields[i]? with
    | none =>
      rw [hold] at hbindings
      cases hbindings
    | some old =>
      rw [hold, Option.map_some, Option.some.injEq] at hbindings
      rw [← hbindings, Bindings.find?_insert] at hfound
      split at hfound
      · cases hfound
        exact hnew
      · exact hfields i old hold name value hfound
  · exact hfields i bindings hbindings name value hfound

end

/-- Values that are as they should be can become fields. -/
theorem Sound.setFields (h : Sound V m) {fields : Array (Bindings Value)}
    (hfields : ∀ (i : Nat) bindings, fields[i]? = some bindings →
      ∀ name value, bindings.find? name = some value → ValueOk V m.frames value) :
    After V m { m with fields := fields } :=
  ⟨⟨h.recorded, h.global, h.bound, hfields⟩, .refl _, rfl, rfl⟩

/-! ### Steps that keep machines sound -/

/-- The errors that no program is to raise. -/
def RuntimeCause.Harmless : RuntimeCause → Prop
  | .unresolvedBinding _ _ => False
  | .superUnavailable => False
  | _ => True

def Interrupt.Harmless : Interrupt → Prop
  | .error e => e.cause.Harmless
  | .outOfFuel => True

variable {α β : Type} {post : α → Machine → Prop} {post' : β → Machine → Prop}

/-- The step keeps the machine sound, raises harmless errors only, and yields what `post` says. -/
def Keeps (V : Visit → Prop) (m : Machine) (post : α → Machine → Prop) :
    EStateM.Result Interrupt Machine α → Prop
  | .ok a m' => After V m m' ∧ post a m'
  | .error e m' => After V m m' ∧ e.Harmless

namespace Keeps

variable {x : Exec α}

theorem pure (h : Sound V m) {a : α} (hpost : post a m) :
    Keeps V m post ((Pure.pure a : Exec α) m) :=
  ⟨h.after, hpost⟩

theorem outOfFuel (h : Sound V m) : Keeps V m post ((Exec.outOfFuel : Exec α) m) :=
  ⟨h.after, trivial⟩

theorem fail (h : Sound V m) {cause : RuntimeCause} (hcause : cause.Harmless) (line : Nat) :
    Keeps V m post ((Exec.fail cause line : Exec α) m) :=
  ⟨h.after, hcause⟩

theorem lift (h : Sound V m) {e : Except RuntimeError α}
    (hok : ∀ a, e = .ok a → post a m) (herror : ∀ error, e = .error error → error.cause.Harmless) :
    Keeps V m post (Exec.lift e m) := by
  cases e with
  | ok a => exact ⟨h.after, hok a rfl⟩
  | error error => exact ⟨h.after, herror error rfl⟩

theorem bind {f : α → Exec β} (hx : Keeps V m post (x m))
    (hf : ∀ a m', After V m m' → post a m' → Keeps V m' post' (f a m')) :
    Keeps V m post' ((x >>= f) m) := by
  change Keeps V m post' (EStateM.bind x f m)
  unfold EStateM.bind
  cases hrun : x m with
  | ok a m' =>
    rw [hrun] at hx
    obtain ⟨hafter, hpost⟩ := hx
    have hrest := hf a m' hafter hpost
    change Keeps V m post' (f a m')
    cases hnext : f a m' with
    | ok b m'' =>
      rw [hnext] at hrest
      exact ⟨hafter.trans hrest.1, hrest.2⟩
    | error e m'' =>
      rw [hnext] at hrest
      exact ⟨hafter.trans hrest.1, hrest.2⟩
  | error e m' =>
    rw [hrun] at hx
    exact hx

theorem map {f : α → β} (hx : Keeps V m (fun a m' => post' (f a) m') (x m)) :
    Keeps V m post' ((f <$> x) m) := by
  change Keeps V m post' (EStateM.map f x m)
  unfold EStateM.map
  cases hrun : x m with
  | ok a m' =>
    rw [hrun] at hx
    exact hx
  | error e m' =>
    rw [hrun] at hx
    exact hx

theorem weaken {post' : α → Machine → Prop} (hx : Keeps V m post (x m))
    (hpost : ∀ a m', After V m m' → post a m' → post' a m') : Keeps V m post' (x m) := by
  cases hrun : x m with
  | ok a m' =>
    rw [hrun] at hx
    exact ⟨hx.1, hpost a m' hx.1 hx.2⟩
  | error e m' =>
    rw [hrun] at hx
    exact hx

theorem inFrame {post' : α → Machine → Prop} {frame : Nat}
    (hx : Keeps V { m with current := frame } post (x { m with current := frame }))
    (hpost : ∀ a m', After V m { m' with current := m.current } → post a m' →
      post' a { m' with current := m.current }) :
    Keeps V m post' (Exec.inFrame frame x m) := by
  have hback : ∀ m', After V { m with current := frame } m' →
      After V m { m' with current := m.current } := by
    intro m' hafter
    exact ⟨hafter.sound.of_eq rfl rfl rfl, hafter.grows, rfl, hafter.distances⟩
  unfold Exec.inFrame
  simp only
  cases hrun : x { m with current := frame } with
  | ok a m' =>
    rw [hrun] at hx
    exact ⟨hback m' hx.1, hpost a m' (hback m' hx.1) hx.2⟩
  | error e m' =>
    rw [hrun] at hx
    exact ⟨hback m' hx.1, hx.2⟩

theorem asCall (hx : Keeps V { m with depth := m.depth + 1 } post (x { m with depth := m.depth + 1 }))
    (hpost : ∀ a m' depth, post a m' → post a { m' with depth := depth }) :
    Keeps V m post (Exec.asCall x m) := by
  have hback : ∀ m' depth, After V { m with depth := m.depth + 1 } m' →
      After V m { m' with depth := depth } := by
    intro m' depth hafter
    exact ⟨hafter.sound.of_eq rfl rfl rfl, hafter.grows, hafter.current, hafter.distances⟩
  unfold Exec.asCall
  cases hrun : x { m with depth := m.depth + 1 } with
  | ok a m' =>
    rw [hrun] at hx
    exact ⟨hback m' _ hx.1, hpost a m' _ hx.2⟩
  | error e m' =>
    rw [hrun] at hx
    exact ⟨hback m' _ hx.1, hx.2⟩

/-! ### The steps of the machine -/

theorem define (h : Sound V m) {name : String} {value : Value} (hname : IsName name)
    (hvalue : ValueOk V m.frames value) :
    Keeps V m (fun _ m' => m'.frames = m.frames.define m.current name value)
      (Exec.define name value m) :=
  ⟨h.define (.inl hname) (hvalue.grow (.define _ _ _ (.inl hname))), rfl⟩

theorem defineIn (h : Sound V m) {frame : Nat} {name : String} {value : Value}
    (hname : IsName name ∨ ∀ v, m.frames.findIn? frame name ≠ some v)
    (hvalue : ValueOk V m.frames value) :
    Keeps V m (fun _ m' => m'.frames = m.frames.define frame name value)
      (Exec.defineIn frame name value m) :=
  ⟨h.define hname (hvalue.grow (.define _ _ _ hname)), rfl⟩

theorem newFrame (h : Sound V m) (outer : Nat) :
    Keeps V m (fun frame m' => frame = m.frames.next ∧ m'.frames = m.frames.child outer)
      (Exec.newFrame outer m) :=
  ⟨h.child outer, rfl, rfl⟩

theorem newInnerFrame (h : Sound V m) :
    Keeps V m (fun frame m' => frame = m.frames.next ∧ m'.frames = m.frames.child m.current)
      (Exec.newInnerFrame m) :=
  ⟨h.child m.current, rfl, rfl⟩

theorem newFunction (h : Sound V m) (d : FunctionDecl) (closure : Nat) (isInitializer : Bool) :
    Keeps V m (fun f m' => f.declaration = d ∧ f.closure = closure ∧
      f.isInitializer = isInitializer ∧ m'.frames = m.frames)
      (Exec.newFunction d closure isInitializer m) :=
  ⟨⟨h.of_eq rfl rfl rfl, .refl _, rfl, rfl⟩, rfl, rfl, rfl, rfl⟩

theorem newIdentity (h : Sound V m) :
    Keeps V m (fun _ m' => m'.frames = m.frames) (Exec.newIdentity m) :=
  ⟨⟨h.of_eq rfl rfl rfl, .refl _, rfl, rfl⟩, rfl⟩

theorem newInstance (h : Sound V m) (c : Class) :
    Keeps V m (fun owner m' => owner.cls = c ∧ m'.frames = m.frames) (Exec.newInstance c m) :=
  ⟨h.setFields (forall_fields_push h.fields), rfl, rfl⟩

theorem get (h : Sound V m) :
    Keeps V m (fun found m' => found = m ∧ m' = m) ((MonadState.get : Exec Machine) m) :=
  ⟨h.after, rfl, rfl⟩

theorem write (h : Sound V m) (text : String) (line : Nat) :
    Keeps V m (fun _ m' => m'.frames = m.frames) (Exec.write text line m) := by
  unfold Exec.write
  refine bind (get h) ?_
  rintro found m' - ⟨rfl, rfl⟩
  split
  · exact fail h (by trivial) line
  · exact ⟨⟨h.of_eq rfl rfl rfl, .refl _, rfl, rfl⟩, rfl⟩

theorem readClock (h : Sound V m) (rules : Rules) :
    Keeps V m (fun _ m' => m'.frames = m.frames) (Exec.readClock rules m) :=
  ⟨⟨h.of_eq rfl rfl rfl, .refl _, rfl, rfl⟩, rfl⟩

/-- A method that is bound to an instance sees it as `this`. -/
theorem bindMethod (h : Sound V m) {method : Function}
    (hmethod : ∃ inherited, MethodOk V m.frames inherited method) {owner : Instance}
    (howner : ClassOk V m.frames owner.cls) :
    Keeps V m (fun f m' => FunctionOk V m'.frames f ∧ f.declaration = method.declaration)
      (Exec.bind method owner m) := by
  unfold Exec.bind
  obtain ⟨-, routine, r, outer, hroutine, hscopes, hmirrors, hkind, -⟩ := hmethod
  refine bind (newFrame h method.closure) ?_
  rintro frame m₁ hafter₁ ⟨rfl, hframes₁⟩
  -- The new frame is empty, so binding `this` overwrites nothing.
  have hfresh : ∀ v, m₁.frames.findIn? m.frames.next "this" ≠ some v := by
    intro v hv
    rw [hframes₁, Frames.findIn?_child_next] at hv
    cases hv
  have hvalue : ValueOk V m₁.frames (.object owner) := howner.grow hafter₁.grows
  refine bind (defineIn hafter₁.sound (.inr hfresh) hvalue) ?_
  intro _ m₂ hafter₂ hframes₂
  refine weaken (newFunction hafter₂.sound _ _ _) ?_
  rintro f m₃ hafter₃ ⟨hdeclaration, hclosure, hinitializer, hframes₃⟩
  have hnext : m.frames.next < m₁.frames.size := hframes₁ ▸ Frames.next_lt_child _ _
  -- The frame binds `this` to the owner, and the new function has the frame for its closure.
  have hthis : m₃.frames.findIn? m.frames.next "this" = some (.object owner) := by
    rw [hframes₃, hframes₂]
    exact Frames.findIn?_define_self hnext _ _
  refine ⟨⟨⟨routine, r, hdeclaration ▸ hroutine, ?_, ?_⟩, fun _ => ?_⟩, hdeclaration⟩
  · -- Around the method there is now the scope of `this`, in the frame just made.
    have hgrows := hafter₂.grows.trans hafter₃.grows
    have houter := Frames.enclosing?_child_next (hmirrors.lt h.global)
    rw [← hframes₁] at houter
    rw [hscopes, hclosure]
    refine ⟨⟨?_, fun _ => ⟨owner, hthis⟩, ?_⟩, method.closure, hgrows.enclosing _ _ houter,
      hmirrors.grow (hafter₁.grows.trans hgrows)⟩
    · -- The one name of that scope is bound.
      intro name hname
      rw [thisScope, Bindings.find?_insert] at hname
      split at hname
      · rename_i heq
        subst heq
        exact ⟨_, hthis⟩
      · cases hname
    · intro hsuper
      cases hsuper
  · -- A method stays the initializer it is.
    intro hinit
    exact hkind (hinitializer ▸ hinit)
  · rw [hclosure]
    exact ⟨owner, hthis⟩

end Keeps

end Lox
