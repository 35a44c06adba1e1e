import Lox.Proofs.Execution.Evaluation
import Lox.Proofs.Frames.Searching

/-!
# Machines with frames of limited names

A machine is confined if each of its frames binds only names that the scope it was made
for ever declares, and if the code of all functions in it is seen from such scopes.  Two
executions agree in a confined machine if they have the same result and leave a confined
machine behind when they succeed.
-/

namespace Lox

open Resolution

/-! ### Values -/

section

variable (V : Visit → Prop) (L : Limits) (frames : Frames Value)

def FunctionSeen (f : Function) : Prop := ∃ Δ, Limited L frames Δ f.closure ∧ f.declaration.Seen V Δ

/-- A method that was not bound yet is seen through one more frame, that of `this`. -/
def MethodSeen (f : Function) : Prop :=
  ∃ Δ, Limited L frames Δ f.closure ∧ f.declaration.Seen V (["this"] :: Δ)

def ClassSeen (c : Class) : Prop :=
  ∀ layer ∈ c.chain, ∀ name f, layer.methods.find? name = some f → MethodSeen V L frames f

def ValueSeen : Value → Prop
  | .function f => FunctionSeen V L frames f
  | .class c => ClassSeen V L frames c
  | .object owner => ClassSeen V L frames owner.cls
  | _ => True

def ValuesSeen (values : List Value) : Prop := ∀ value ∈ values, ValueSeen V L frames value

end

/-- A sound machine whose frames keep within their limits and whose functions are seen. -/
structure Confined (V : Visit → Prop) (L : Limits) (m : Machine) : Prop where
  sound : Sound V m
  kept : Kept L m.frames
  bound : ∀ f name value, m.frames.findIn? f name = some value → ValueSeen V L m.frames value
  fields : ∀ (i : Nat) bindings, m.fields[i]? = some bindings →
    ∀ name value, bindings.find? name = some value → ValueSeen V L m.frames value

/-- What is the case behind a step that succeeds: the frames that were there have their limits. -/
structure Proceeds (V : Visit → Prop) (L : Limits) (m : Machine) (L' : Limits) (m' : Machine) :
    Prop where
  after : After V m m'
  limits : ∀ f : Nat, f < m.frames.size → L' f = L f
  confined : Confined V L' m'

/-- The code at hand runs where its scopes are mirrored and its outlook is kept. -/
structure Placed (V : Visit → Prop) (L : Limits) (m : Machine) (scopes : List Scope) (Δ : Outlook) :
    Prop where
  confined : Confined V L m
  here : Here m scopes
  limited : Limited L m.frames Δ m.current

variable {V : Visit → Prop} {L L' L'' : Limits} {m m' m'' : Machine} {frames frames' : Frames Value}
  {scopes : List Scope} {Δ : Outlook}

/-! ### What stays -/

section

variable (hgrows : Grows frames frames') (hlimits : ∀ f : Nat, f < frames.size → L' f = L f)

include hgrows hlimits

theorem FunctionSeen.grow {f : Function} (h : FunctionSeen V L frames f) :
    FunctionSeen V L' frames' f := by
  obtain ⟨Δ, hlimited, hseen⟩ := h
  exact ⟨Δ, hlimited.grow hgrows hlimits, hseen⟩

theorem ClassSeen.grow {c : Class} (h : ClassSeen V L frames c) : ClassSeen V L' frames' c := by
  intro layer hlayer name f hf
  obtain ⟨Δ, hlimited, hseen⟩ := h layer hlayer name f hf
  exact ⟨Δ, hlimited.grow hgrows hlimits, hseen⟩

theorem ValueSeen.grow {value : Value} (h : ValueSeen V L frames value) :
    ValueSeen V L' frames' value := by
  cases value with
  | function f => exact FunctionSeen.grow hgrows hlimits h
  | «class» c => exact ClassSeen.grow hgrows hlimits h
  | object owner => exact ClassSeen.grow hgrows hlimits h
  | _ => trivial

end

theorem ClassSeen.findMethod? {c : Class} (h : ClassSeen V L frames c) {name : String}
    {f : Function} (hf : c.findMethod? name = some f) : MethodSeen V L frames f := by
  unfold Class.findMethod? at hf
  obtain ⟨before, layer, inherited, hchain, hfind, -⟩ := List.findSome?_eq_some_iff.mp hf
  refine h layer ?_ name f hfind
  rw [hchain]
  exact List.mem_append_right _ List.mem_cons_self

/-- A class whose own methods are seen, and those of its superclass. -/
theorem ClassSeen.of_layer {layer : ClassLayer} {parent : Option Class}
    (hown : ∀ name f, layer.methods.find? name = some f → MethodSeen V L frames f)
    (hparent : ∀ c ∈ parent, ClassSeen V L frames c) :
    ClassSeen V L frames ⟨layer, (parent.map Class.chain).getD []⟩ := by
  intro other hother name f hf
  rcases List.mem_cons.mp hother with rfl | hother
  · exact hown name f hf
  · cases parent with
    | none => cases hother
    | some c => exact hparent c rfl other hother name f hf

namespace Proceeds

theorem same (h : Confined V L m) : Proceeds V L m L m := ⟨h.sound.after, fun _ _ => rfl, h⟩

theorem trans (h : Proceeds V L m L' m') (h' : Proceeds V L' m' L'' m'') : Proceeds V L m L'' m'' where
  after := h.after.trans h'.after
  limits f hf :=
    (h'.limits f (Nat.lt_of_lt_of_le hf h.after.grows.size_le)).trans (h.limits f hf)
  confined := h'.confined

theorem value {value : Value} (h : Proceeds V L m L' m') (hvalue : ValueSeen V L m.frames value) :
    ValueSeen V L' m'.frames value :=
  hvalue.grow h.after.grows h.limits

theorem «class» {c : Class} (h : Proceeds V L m L' m') (hc : ClassSeen V L m.frames c) :
    ClassSeen V L' m'.frames c :=
  hc.grow h.after.grows h.limits

theorem values {values : List Value} (h : Proceeds V L m L' m')
    (hvalues : ValuesSeen V L m.frames values) : ValuesSeen V L' m'.frames values :=
  fun value hvalue => h.value (hvalues value hvalue)

theorem limited {f : Nat} (h : Proceeds V L m L' m') (hlimited : Limited L m.frames Δ f) :
    Limited L' m'.frames Δ f :=
  hlimited.grow h.after.grows h.limits

end Proceeds

theorem Placed.later (h : Placed V L m scopes Δ) (hlater : Proceeds V L m L' m') :
    Placed V L' m' scopes Δ := by
  refine ⟨hlater.confined, h.here.after hlater.after, ?_⟩
  rw [hlater.after.current]
  exact hlater.limited h.limited

namespace Confined

/-- Only the frames and the fields matter. -/
theorem of_eq (h : Confined V L m) (hsound : Sound V m') (hframes : m'.frames = m.frames)
    (hfields : m'.fields = m.fields) : Confined V L m' := by
  refine ⟨hsound, ?_, ?_, ?_⟩
  · rw [hframes]
    exact h.kept
  · rw [hframes]
    exact h.bound
  · rw [hframes, hfields]
    exact h.fields

/-- A new frame can be given any limits. -/
theorem child (h : Confined V L m) (outer : Nat) (names : List String) :
    Proceeds V L m (fun f => if f = m.frames.next then names else L f)
      { m with frames := m.frames.child outer } := by
  have hafter := h.sound.child outer
  have hlimits : ∀ f : Nat, f < m.frames.size →
      (if f = m.frames.next then names else L f) = L f :=
    fun f hf => if_neg (Nat.ne_of_lt hf)
  refine ⟨hafter, hlimits, hafter.sound, ?_, ?_, ?_⟩
  · intro f name value hfound
    have hold : m.frames.findIn? f name = some value := by
      rw [← Frames.findIn?_child m.frames outer f name]
      exact hfound
    have hlt : f < m.frames.size := by
      apply Nat.lt_of_not_le
      intro hle
      rw [Frames.findIn?_of_le hle] at hold
      cases hold
    change f = Frames.globalFrame ∨ name ∈ if f = m.frames.next then names else L f
    rw [hlimits f hlt]
    exact h.kept f name value hold
  · intro f name value hfound
    have hold : m.frames.findIn? f name = some value := by
      rw [← Frames.findIn?_child m.frames outer f name]
      exact hfound
    exact (h.bound f name value hold).grow hafter.grows hlimits
  · intro i bindings hbindings name value hfound
    exact (h.fields i bindings hbindings name value hfound).grow hafter.grows hlimits

/-- A frame can bind what its limits allow. -/
theorem define (h : Confined V L m) {f : Nat} {name : String} {value : Value}
    (hafter : After V m { m with frames := m.frames.define f name value })
    (hallowed : f = Frames.globalFrame ∨ name ∈ L f) (hvalue : ValueSeen V L m.frames value) :
    Proceeds V L m L { m with frames := m.frames.define f name value } := by
  refine ⟨hafter, fun _ _ => rfl, hafter.sound, ?_, ?_, ?_⟩
  · intro g other found hfound
    by_cases hsame : g = f ∧ other = name
    · obtain ⟨rfl, rfl⟩ := hsame
      exact hallowed
    · have hold : m.frames.findIn? g other = some found := by
        rw [← Frames.findIn?_define_of_ne value hsame]
        exact hfound
      exact h.kept g other found hold
  · intro g other found hfound
    rcases Frames.findIn?_define_cases hfound with rfl | hold
    · exact hvalue.grow hafter.grows fun _ _ => rfl
    · exact (h.bound g other found hold).grow hafter.grows fun _ _ => rfl
  · intro i bindings hbindings other found hfound
    exact (h.fields i bindings hbindings other found hfound).grow hafter.grows fun _ _ => rfl

end Confined

/-! ### Executions that agree -/

variable {α β : Type} {post : Limits → α → Machine → Prop} {post' : Limits → β → Machine → Prop}

/-- The results are the same, and the machine behind a success is confined. -/
def Agrees (V : Visit → Prop) (L : Limits) (m : Machine) (post : Limits → α → Machine → Prop)
    (result' result : EStateM.Result Interrupt Machine α) : Prop :=
  result' = result ∧ ∀ a m', result = .ok a m' → ∃ L', Proceeds V L m L' m' ∧ post L' a m'

namespace Agrees

variable {x x' : Exec α} {result result' : EStateM.Result Interrupt Machine α}

theorem ok {a : α} (hlater : Proceeds V L m L' m') (hpost : post L' a m') :
    Agrees V L m post (.ok a m') (.ok a m') := by
  refine ⟨rfl, ?_⟩
  rintro _ _ ⟨⟩
  exact ⟨L', hlater, hpost⟩

theorem error (e : Interrupt) (m' : Machine) : Agrees V L m post (.error e m') (.error e m') :=
  ⟨rfl, nofun⟩

theorem pure (h : Confined V L m) {a : α} (hpost : post L a m) :
    Agrees V L m post ((Pure.pure a : Exec α) m) ((Pure.pure a : Exec α) m) :=
  ok (.same h) hpost

theorem fail (cause : RuntimeCause) (line : Nat) :
    Agrees V L m post ((Exec.fail cause line : Exec α) m) ((Exec.fail cause line : Exec α) m) :=
  error _ m

theorem bind_get {f f' : Machine → Exec α} (h : Agrees V L m post (f' m m) (f m m)) :
    Agrees V L m post (((MonadState.get : Exec Machine) >>= f') m)
      (((MonadState.get : Exec Machine) >>= f) m) := h

theorem lift (h : Confined V L m) {e : Except RuntimeError α} (hok : ∀ a, e = .ok a → post L a m) :
    Agrees V L m post (Exec.lift e m) (Exec.lift e m) := by
  cases e with
  | ok a => exact ok (.same h) (hok a rfl)
  | error e => exact error _ m

/-- What is known of a step alone is known of it here. -/
theorem and_keeps {p : α → Machine → Prop} (h : Agrees V L m post result' result)
    (hkeeps : Keeps V m p result) :
    Agrees V L m (fun L' a m' => p a m' ∧ post L' a m') result' result := by
  refine ⟨h.1, ?_⟩
  rintro a m' rfl
  obtain ⟨L', hlater, hpost⟩ := h.2 a m' rfl
  exact ⟨L', hlater, hkeeps.2, hpost⟩

theorem weaken {post' : Limits → α → Machine → Prop} (h : Agrees V L m post result' result)
    (hpost : ∀ L' a m', Proceeds V L m L' m' → post L' a m' → post' L' a m') :
    Agrees V L m post' result' result := by
  refine ⟨h.1, ?_⟩
  intro a m' hrun
  obtain ⟨L', hlater, hp⟩ := h.2 a m' hrun
  exact ⟨L', hlater, hpost L' a m' hlater hp⟩

/-- What is known of a step alone need not be carried on. -/
theorem of_and {p : α → Machine → Prop}
    (h : Agrees V L m (fun L' a m' => p a m' ∧ post L' a m') result' result) :
    Agrees V L m post result' result :=
  h.weaken fun _ _ _ _ hboth => hboth.2

theorem bind {f f' : α → Exec β} (hx : Agrees V L m post (x' m) (x m))
    (hf : ∀ L₁ a m₁, Proceeds V L m L₁ m₁ → post L₁ a m₁ → Agrees V L₁ m₁ post' (f' a m₁) (f a m₁)) :
    Agrees V L m post' ((x' >>= f') m) ((x >>= f) m) := by
  change Agrees V L m post' (EStateM.bind x' f' m) (EStateM.bind x f m)
  unfold EStateM.bind
  rw [hx.1]
  cases hrun : x m with
  | ok a m₁ =>
    obtain ⟨L₁, hlater, hpost⟩ := hx.2 a m₁ hrun
    have hnext := hf L₁ a m₁ hlater hpost
    refine ⟨hnext.1, ?_⟩
    intro b m₂ hrest
    obtain ⟨L₂, hlater₂, hpost₂⟩ := hnext.2 b m₂ hrest
    exact ⟨L₂, hlater.trans hlater₂, hpost₂⟩
  | error e m₁ => exact error e m₁

theorem map {f : α → β} (hx : Agrees V L m (fun L' a m' => post' L' (f a) m') (x' m) (x m)) :
    Agrees V L m post' ((f <$> x') m) ((f <$> x) m) := by
  change Agrees V L m post' (EStateM.map f x' m) (EStateM.map f x m)
  unfold EStateM.map
  rw [hx.1]
  cases hrun : x m with
  | ok a m₁ =>
    obtain ⟨L₁, hlater, hpost⟩ := hx.2 a m₁ hrun
    exact ok hlater hpost
  | error e m₁ => exact error e m₁

theorem inFrame {post' : Limits → α → Machine → Prop} {frame : Nat}
    (hx : Agrees V L { m with current := frame } post (x' { m with current := frame })
      (x { m with current := frame }))
    (hpost : ∀ L' a m', post L' a m' → post' L' a { m' with current := m.current }) :
    Agrees V L m post' (Exec.inFrame frame x' m) (Exec.inFrame frame x m) := by
  unfold Exec.inFrame
  simp only
  rw [hx.1]
  cases hrun : x { m with current := frame } with
  | ok a m₁ =>
    obtain ⟨L₁, hlater, hp⟩ := hx.2 a m₁ hrun
    have hsound : Sound V { m₁ with current := m.current } :=
      hlater.after.sound.of_eq rfl rfl rfl
    exact ok ⟨⟨hsound, hlater.after.grows, rfl, hlater.after.distances⟩, hlater.limits,
      hlater.confined.of_eq hsound rfl rfl⟩ (hpost L₁ a m₁ hp)
  | error e m₁ => exact error e _

theorem asCall (hx : Agrees V L { m with depth := m.depth + 1 } post
      (x' { m with depth := m.depth + 1 }) (x { m with depth := m.depth + 1 }))
    (hpost : ∀ L' a m' depth, post L' a m' → post L' a { m' with depth := depth }) :
    Agrees V L m post (Exec.asCall x' m) (Exec.asCall x m) := by
  unfold Exec.asCall
  rw [hx.1]
  cases hrun : x { m with depth := m.depth + 1 } with
  | ok a m₁ =>
    obtain ⟨L₁, hlater, hp⟩ := hx.2 a m₁ hrun
    have hsound : Sound V { m₁ with depth := m₁.depth - 1 } :=
      hlater.after.sound.of_eq rfl rfl rfl
    exact ok ⟨⟨hsound, hlater.after.grows, hlater.after.current, hlater.after.distances⟩,
      hlater.limits, hlater.confined.of_eq hsound rfl rfl⟩ (hpost L₁ a m₁ _ hp)
  | error e m₁ => exact error e _

end Agrees

end Lox
