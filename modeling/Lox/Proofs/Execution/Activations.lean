import Lox.Proofs.Execution.Order
import Lox.Proofs.Execution.Writes

/-!
# Activations

Each execution of a block and each call of a function opens a frame for the code in it.
The frame is the next one at that time, so no frame is opened twice.  What the code of an
activation sees was opened in it, or is older and around the function; and what was opened
by a call of a function is further in than all that is around the function.  Functions
that are made in one activation, in the blocks in it and as the methods of the classes in
it, have its frame around theirs.
-/

namespace Lox

open Resolution Exec

variable {V : Visit → Prop} {rules : Rules} {start x y z : Moment} {f g k : FrameId}
  {frames frames' : Frames Value} {m m' : Machine}

/-! ### Opened frames -/

/-- The task runs its part in a frame that it has made for this. -/
def Opens (rules : Rules) (x : Moment) (f : FrameId) : Prop :=
  ∃ y, Leads rules x y ∧ x.task.opens = true ∧ y.machine.current = f

/-- The frame that is opened is the next one. -/
theorem Opens.eq_size (hopens : Opens rules x f) : f = x.machine.frames.size := by
  obtain ⟨y, hleads, htask, rfl⟩ := hopens
  exact (hleads.opened htask).1

/-- A task that opens a frame has one part only. -/
theorem Leads.unique (hy : Leads rules x y) (hz : Leads rules x z) (hopens : x.task.opens = true) :
    y = z := by
  cases hy with
  | body hbind =>
    cases hz with
    | body hbind' =>
      cases hbind.symm.trans hbind'
      rfl
  | block hframe =>
    cases hz with
    | block hframe' =>
      cases hframe.symm.trans hframe'
      rfl
  | _ => cases hopens

theorem Opens.size_lt_final (hopens : Opens rules x f) (hok : x.Ok V) :
    x.machine.frames.size < (x.final rules).frames.size := by
  obtain ⟨y, hleads, htask, -⟩ := hopens
  have hend := (hok.extends_part hleads).trans (hok.extends_behind hleads)
  exact Nat.lt_of_lt_of_le (hleads.opened htask).2 hend.grows.size_le

/-- Where a frame has been opened, there is one more from then on. -/
theorem Opens.size_lt_of_passes (hopens : Opens rules x f) (hok : x.Ok V)
    (hpasses : Passes rules x y) :
    y = x ∨ x.machine.frames.size < y.machine.frames.size := by
  rcases hpasses.first with rfl | ⟨y', hfirst, hrest⟩
  · exact .inl rfl
  · obtain ⟨-, -, htask, -⟩ := hopens
    have hgrows := ((hok.leads hfirst).extends_passes hrest).grows
    exact .inr (Nat.lt_of_lt_of_le (hfirst.opened htask).2 hgrows.size_le)

/-- No frame is opened twice. -/
theorem Moment.Ok.opened_once (hok : start.Ok V) (hx : Passes rules start x)
    (hy : Passes rules start y) (hfx : Opens rules x f) (hfy : Opens rules y f) : x = y := by
  have hsize : x.machine.frames.size = y.machine.frames.size := hfx.eq_size.symm.trans hfy.eq_size
  have hokx := hok.passes hx
  have hoky := hok.passes hy
  rcases hok.in_order hx hy with hpasses | hpasses | hbefore | hbehind
  · rcases hfx.size_lt_of_passes hokx hpasses with heq | hlt
    · exact heq.symm
    · exact absurd hsize (Nat.ne_of_lt hlt)
  · rcases hfy.size_lt_of_passes hoky hpasses with heq | hlt
    · exact heq
    · exact absurd hsize.symm (Nat.ne_of_lt hlt)
  · have hlt := Nat.lt_of_lt_of_le (hfx.size_lt_final hokx) hbefore.grows.size_le
    exact absurd hsize (Nat.ne_of_lt hlt)
  · have hlt := Nat.lt_of_lt_of_le (hfy.size_lt_final hoky) hbehind.grows.size_le
    exact absurd hsize.symm (Nat.ne_of_lt hlt)

/--
Of two moments of a run, one has begun before the other opens its frame, or it grows out
of what the other has made of the frames.
-/
theorem Moment.Ok.size_le_or_grows (hok : start.Ok V) (hx : Passes rules start x)
    (hy : Passes rules start y) (hne : x ≠ y) (hbody : Leads rules y z)
    (hopens : y.task.opens = true) :
    x.machine.frames.size ≤ y.machine.frames.size ∨
      Grows z.machine.frames x.machine.frames := by
  have hokx := hok.passes hx
  have hoky := hok.passes hy
  rcases hok.in_order hx hy with hpasses | hpasses | hbefore | hbehind
  · exact .inl (hokx.extends_passes hpasses).grows.size_le
  · rcases hpasses.first with heq | ⟨z', hfirst, hrest⟩
    · exact absurd heq hne
    · rw [hbody.unique hfirst hopens]
      exact .inr ((hoky.leads hfirst).extends_passes hrest).grows
  · exact .inl (Nat.le_trans hokx.extends_final.grows.size_le hbefore.grows.size_le)
  · have hend := (hoky.leads hbody).extends_final.trans (hoky.extends_behind hbody)
    exact .inr (hend.trans hbehind).grows

/-! ### Frames around a frame -/

/-- From one frame it is some number of steps outwards to the other. -/
def Frames.Reaches {α : Type} (frames : Frames α) (f g : FrameId) : Prop :=
  ∃ d, frames.ancestor? f d = some g

namespace Frames.Reaches

theorem refl (frames : Frames Value) (f : FrameId) : frames.Reaches f f := ⟨0, rfl⟩

theorem enclosed (h : frames.enclosing? f = some g) (hreaches : frames.Reaches g k) :
    frames.Reaches f k := by
  obtain ⟨d, hd⟩ := hreaches
  exact ⟨d + 1, by rw [ancestor?, h, Option.bind_some, hd]⟩

theorem trans (hreaches : frames.Reaches f g) (hreaches' : frames.Reaches g k) :
    frames.Reaches f k := by
  obtain ⟨d, hd⟩ := hreaches
  obtain ⟨d', hd'⟩ := hreaches'
  exact ⟨d + d', by rw [ancestor?_add, hd, Option.bind_some, hd']⟩

theorem grow (hreaches : frames.Reaches f g) (hgrows : Grows frames frames') :
    frames'.Reaches f g := by
  obtain ⟨d, hd⟩ := hreaches
  exact ⟨d, hgrows.ancestor? hd⟩

/-- A frame that is reached is the same or older. -/
theorem le (hreaches : frames.Reaches f g) : g ≤ f := by
  obtain ⟨d, hd⟩ := hreaches
  induction d generalizing f with
  | zero =>
    cases hd
    exact Nat.le_refl _
  | succ d ih =>
    rw [ancestor?] at hd
    obtain ⟨outer, houter, hd⟩ := Option.bind_eq_some_iff.mp hd
    exact Nat.le_trans (ih hd) (Nat.le_of_lt (lt_of_enclosing? houter).2)

/-- The first step to a frame that is reached. -/
theorem cases_enclosing (hreaches : frames.Reaches f g) :
    g = f ∨ ∃ outer, frames.enclosing? f = some outer ∧ frames.Reaches outer g := by
  obtain ⟨d, hd⟩ := hreaches
  cases d with
  | zero =>
    cases hd
    exact .inl rfl
  | succ d =>
    rw [ancestor?] at hd
    obtain ⟨outer, houter, hd⟩ := Option.bind_eq_some_iff.mp hd
    exact .inr ⟨outer, houter, d, hd⟩

/-- What reaches a frame of the store is in the store. -/
theorem lt (hreaches : frames.Reaches f g) (hg : g < frames.size) : f < frames.size := by
  rcases hreaches.cases_enclosing with rfl | ⟨outer, houter, -⟩
  · exact hg
  · exact (lt_of_enclosing? houter).1

end Frames.Reaches

/-- Around frames that end in the global one, nothing is added while frames grow. -/
theorem Mirrors.reaches_of_grows {scopes : List Scope} (hmirrors : Mirrors frames scopes f)
    (hgrows : Grows frames frames') (hreaches : frames'.Reaches f g) : frames.Reaches f g := by
  induction scopes generalizing f with
  | nil =>
    cases hmirrors
    rcases hreaches.cases_enclosing with rfl | ⟨outer, houter, -⟩
    · exact .refl _ _
    · exact absurd (Frames.lt_of_enclosing? houter).2 (Nat.not_lt_zero outer)
  | cons scope outer ih =>
    obtain ⟨-, next, hnext, houter⟩ := hmirrors
    rcases hreaches.cases_enclosing with rfl | ⟨next', hnext', hrest⟩
    · exact .refl _ _
    · rw [hgrows.enclosing f next hnext, Option.some.injEq] at hnext'
      subst hnext'
      exact .enclosed hnext (ih houter hrest)

/-- The two frames are equally far from a frame around both. -/
def Frames.Level (frames : Frames Value) (f g : FrameId) : Prop :=
  ∃ d k, frames.ancestor? f d = some k ∧ frames.ancestor? g d = some k

theorem Frames.Level.grow (hlevel : frames.Level f g) (hgrows : Grows frames frames') :
    frames'.Level f g := by
  obtain ⟨d, k, hf, hg⟩ := hlevel
  exact ⟨d, k, hgrows.ancestor? hf, hgrows.ancestor? hg⟩

/-- What is directly inside of the one is not around the other. -/
theorem Frames.Level.not_reaches (hlevel : frames.Level f g)
    (hinside : frames.enclosing? k = some g) : ¬ frames.Reaches f k := by
  rintro ⟨e, he⟩
  obtain ⟨d, common, hf, hg⟩ := hlevel
  -- From `f` through `k` and `g`, the common frame is met a second time, further out.
  have htwice : frames.ancestor? f (e + (d + 1)) = some common := by
    rw [ancestor?_add, he, Option.bind_some, ancestor?, hinside, Option.bind_some, hg]
  rw [← Nat.add_assoc, Nat.add_comm e d, Nat.add_assoc, ancestor?_add, hf, Option.bind_some,
    ancestor?] at htwice
  obtain ⟨outer, houter, hagain⟩ := Option.bind_eq_some_iff.mp htwice
  exact Nat.not_le_of_lt (lt_of_enclosing? houter).2 (Reaches.le ⟨e, hagain⟩)

/-! ### Inside one activation -/

theorem Inward.passes {through : Task → Prop} (hinward : Inward rules through x y) :
    Passes rules x y := by
  induction hinward with
  | here => exact .start
  | step _ hleads _ _ ih => exact ih.step hleads

/-- Code runs where its scopes are mirrored. -/
theorem Moment.Ok.here (hok : x.Ok V) (hcode : x.task.IsCode) :
    ∃ scopes, Here x.machine scopes := by
  obtain ⟨fuel, task, m⟩ := x
  have htask := hok.task
  cases task with
  | call | callFunction => cases hcode
  | evaluate | evaluateEach =>
    obtain ⟨scopes, hhere, -⟩ := htask
    exact ⟨scopes, hhere⟩
  | execute | executeEach | iterate =>
    obtain ⟨r, hhere, -⟩ := htask
    exact ⟨r.scopes, hhere⟩

theorem Moment.home_of_isCode (hcode : x.task.IsCode) : x.home = x.machine.current := by
  obtain ⟨fuel, task, m⟩ := x
  cases task with
  | callFunction => cases hcode
  | _ => rfl

/-- A call of a function opens a frame inside of the one around the function. -/
theorem Moment.of_callFunction {function : Function} {arguments : List Value} {line : Nat}
    (hcall : x.task = .callFunction function arguments line) :
    x.task.opens = true ∧ x.home = function.closure := by
  obtain ⟨fuel, task, m⟩ := x
  cases hcall
  exact ⟨rfl, rfl⟩

/-- All code of an activation runs in its frame or further in. -/
theorem Moment.Ok.reaches_inward (hok : x.Ok V) (hinward : Inward rules Task.IsCode x y) :
    y.machine.frames.Reaches y.machine.current x.machine.current := by
  induction hinward with
  | here => exact .refl _ _
  | @step y z hinward hleads hcode _ ih =>
    have hled := (hok.passes hinward.passes).led hleads
    have hgrown := ih.grow hled.grows
    by_cases hopens : y.task.opens = true
    · have houter := hled.opened hopens
      rw [Moment.home_of_isCode hcode] at houter
      exact .enclosed houter hgrown
    · rw [hled.stays (Bool.eq_false_iff.mpr hopens)]
      exact hgrown

/--
The frames around the code of an activation are those of the blocks in it, and those that
are around the activation itself.
-/
theorem Moment.Ok.reached_inward (hok : x.Ok V) (hinward : Inward rules Task.IsCode x y)
    (hreaches : y.machine.frames.Reaches y.machine.current g) :
    (∃ z, Inward rules Task.IsCode x z ∧ z.task.IsCode ∧ Opens rules z g) ∨
      x.machine.frames.Reaches x.machine.current g := by
  induction hinward generalizing g with
  | here => exact .inr hreaches
  | @step y z hinward hleads hcode hcode' ih =>
    have hoky := hok.passes hinward.passes
    have hled := hoky.led hleads
    obtain ⟨scopes, hhere⟩ := hoky.here hcode
    by_cases hopens : y.task.opens = true
    · rcases hreaches.cases_enclosing with rfl | ⟨outer, houter, hrest⟩
      · exact .inl ⟨y, hinward, hcode, z, hleads, hopens, rfl⟩
      · rw [hled.opened hopens, Moment.home_of_isCode hcode, Option.some.injEq] at houter
        subst houter
        exact ih (Mirrors.reaches_of_grows hhere hled.grows hrest)
    · rw [hled.stays (Bool.eq_false_iff.mpr hopens)] at hreaches
      exact ih (Mirrors.reaches_of_grows hhere hled.grows hreaches)

/--
What the code of an activation sees was opened in it, or is older and around the home of
the activation.
-/
theorem Moment.Ok.seen_inward {body : Moment} (hok : x.Ok V) (hbody : Leads rules x body)
    (hopens : x.task.opens = true) (hinward : Inward rules Task.IsCode body z)
    (hreaches : z.machine.frames.Reaches z.machine.current g) :
    (∃ w, Passes rules x w ∧ (w = x ∨ w.task.IsCode) ∧ Opens rules w g) ∨
      g < x.machine.frames.size ∧ body.machine.frames.Reaches x.home g := by
  have hled := hok.led hbody
  rcases hled.ok.reached_inward hinward hreaches with ⟨w, hw, hcode, hopensw⟩ | haround
  · exact .inl ⟨w, (Passes.start.step hbody).trans hw.passes, .inr hcode, hopensw⟩
  · rcases haround.cases_enclosing with rfl | ⟨outer, houter, hrest⟩
    · exact .inl ⟨x, .start, .inl rfl, body, hbody, hopens, rfl⟩
    · have hhome := hled.opened hopens
      rw [hhome, Option.some.injEq] at houter
      subst houter
      have hlt := (Frames.lt_of_enclosing? hhome).2
      rw [(hbody.opened hopens).1] at hlt
      exact .inr ⟨Nat.lt_of_le_of_lt hrest.le hlt, hrest⟩

/-! ### Functions that are made in one activation -/

/--
A function is made where its declaration is executed, which binds its name to it, and a
method where the declaration of its class is.
-/
inductive Makes (rules : Rules) : Moment → Function → Machine → Prop where
  | function {fuel : Nat} {d : FunctionDecl} {m m' : Machine} {flow : Flow} {function : Function} :
      Exec.execute rules (fuel + 1) (.function d) m = .ok flow m' →
      m'.frames.findIn? m.current d.name.lexeme = some (.function function) →
      Makes rules ⟨fuel + 1, .execute (.function d), m⟩ function m'
  | method {fuel : Nat} {name : Token} {superclass : Option Occurrence}
      {methods : List FunctionDecl} {m m' : Machine} {flow : Flow} {c : Class} {key : String}
      {function : Function} :
      Exec.execute rules (fuel + 1) (.class name superclass methods) m = .ok flow m' →
      m'.frames.findIn? m.current name.lexeme = some (.class c) →
      c.layer.methods.find? key = some function →
      Makes rules ⟨fuel + 1, .execute (.class name superclass methods), m⟩ function m'

theorem Restored.reaches (hrestored : Restored m m') (hf : f < m.frames.size)
    (hreaches : m.frames.Reaches f g) : m'.frames.Reaches f g := by
  obtain ⟨d, hd⟩ := hreaches
  exact ⟨d, by rw [Frames.ancestor?_of_enclosing hrestored.enclosing hf, hd]⟩

/-- The frame of a bound method is inside of the one around the method. -/
theorem Exec.enclosing?_of_bind {method function : Function} {owner : Instance}
    (hclosure : method.closure < m.frames.size) (h : Exec.bind method owner m = .ok function m') :
    m'.frames.enclosing? function.closure = some method.closure := by
  rw [Exec.bind_eq] at h
  cases h
  rw [Frames.enclosing?_define, Frames.enclosing?_child_next hclosure]

/-- Methods see the frame at hand, or one of their own directly inside of it. -/
theorem Exec.of_methodFrame {superclass : Option Class} (hcurrent : m.current < m.frames.size)
    (h : methodFrame superclass m = .ok f m') :
    m'.frames.Reaches f m.current ∧ f < m'.frames.size := by
  cases superclass with
  | none =>
    cases h
    exact ⟨.refl _ _, hcurrent⟩
  | some parent =>
    cases h
    refine ⟨.enclosed ?_ (.refl _ _), ?_⟩
    · rw [Frames.enclosing?_define, Frames.enclosing?_child_next hcurrent]
    · rw [Frames.size_define, Frames.size_child]
      exact Nat.lt_succ_self _

/-- The methods of a class see the frame in which the class is declared. -/
theorem Exec.reaches_of_declareClass {name : Token} {superclass : Option Occurrence}
    {methods : List FunctionDecl} {c : Class} {key : String} {method : Function}
    (hcurrent : m.current < m.frames.size)
    (h : declareClass rules name superclass methods m = .ok () m')
    (hfound : m'.frames.findIn? m.current name.lexeme = some (.class c))
    (hmethod : c.layer.methods.find? key = some method) :
    m'.frames.Reaches method.closure m.current := by
  obtain ⟨m₁, m₂, m₃, m₄, parent, frame, own, id, hdefine, hsuper, hframe, hown, hbound⟩ :=
    of_declareClass_ok h
  have h₂ : Restored m m₂ :=
    ((Restores.define _ _).of_ok hdefine).trans ((Restores.superclassOf rules _).of_ok hsuper)
  have h₃ : Restored m₂ m₃ := (Restores.methodFrame _).of_ok hframe
  have h₄ : Restored m₃ { m₄ with nextIdentity := m₄.nextIdentity + 1 } :=
    ((Restores.makeMethods _ _).of_ok hown).trans (Restores.newIdentity m₄)
  have h' : Restored m { m₄ with nextIdentity := m₄.nextIdentity + 1 } := (h₂.trans h₃).trans h₄
  have hcurrent₂ : m₂.current < m₂.frames.size := by
    rw [h₂.current]
    exact Nat.lt_of_lt_of_le hcurrent h₂.size_le
  obtain ⟨hreaches, hlt⟩ := of_methodFrame hcurrent₂ hframe
  rw [h₂.current] at hreaches
  have hclosure : method.closure = frame := by
    cases hbound
    rw [← h'.current] at hfound hcurrent
    rw [Frames.findIn?_define_self (Nat.lt_of_lt_of_le hcurrent h'.size_le)] at hfound
    cases hfound
    exact forall_makeMethods (P := fun _ f => f.closure = frame) (fun _ _ _ _ => rfl) hown
      key method hmethod
  rw [hclosure]
  exact (h₄.trans ((Restores.define _ _).of_ok hbound)).reaches hlt hreaches

/-- A function sees the frame that it is made in. -/
theorem Makes.reaches {function : Function} (hmakes : Makes rules x function m) (hok : x.Ok V) :
    m.frames.Reaches function.closure x.machine.current := by
  obtain ⟨scopes, hhere⟩ := hok.here (by cases hmakes <;> trivial)
  have hcurrent := Mirrors.lt hhere hok.sound.global
  cases hmakes with
  | function hrun hfound =>
    cases hrun
    rw [Frames.findIn?_define_self hcurrent] at hfound
    cases hfound
    exact .refl _ _
  | method hrun hfound hmethod =>
    simp only [Exec.execute] at hrun
    obtain ⟨⟨⟩, m', hdeclare, hflow⟩ := of_bind_ok hrun
    cases hflow
    exact reaches_of_declareClass hcurrent hdeclare hfound hmethod

theorem Makes.final {function : Function} (hmakes : Makes rules x function m) :
    x.final rules = m := by
  cases hmakes with
  | function hrun _ | method hrun _ _ => simp only [Moment.final, hrun, endOf]

/-- Functions that are made in one activation see its frame. -/
theorem Makes.reaches_activation {function : Function} {body : Moment} (hok : x.Ok V)
    (hbody : Leads rules x body) (hopens : x.task.opens = true)
    (hinward : Inward rules Task.IsCode body z) (hmakes : Makes rules z function m) :
    body.machine.current < m.frames.size ∧
      m.frames.Reaches function.closure body.machine.current := by
  have hokb := hok.leads hbody
  have hokz := hokb.passes hinward.passes
  have hgrows : Grows z.machine.frames m.frames := by
    rw [← hmakes.final]
    exact hokz.extends_final.grows
  obtain ⟨hcurrent, hsize⟩ := hbody.opened hopens
  constructor
  · rw [hcurrent]
    have hle := (hokb.extends_passes hinward.passes).grows.size_le
    exact Nat.lt_of_lt_of_le hsize (Nat.le_trans hle hgrows.size_le)
  · exact (hmakes.reaches hokz).trans ((hokb.reaches_inward hinward).grow hgrows)

end Lox
