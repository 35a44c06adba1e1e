import Lox.Proofs.Execution.Activations
import Lox.Proofs.Session.Methods

/-!
# What inner code does to frames

In every run of a session, a block and a call leave the frames that were there with the
names they had, and change a value there only by an assignment that points to it.  Each of
them opens a frame that was never there before, so the locals of two activations are
different ones, and those of one activation are shared by all functions made in it.

A method is bound anew by each access to it, so the calls of one method are calls of
different functions.  They count as activations of the same function here as well.
-/

namespace Lox

open Resolution Exec

/-! ### Bound methods -/

/-- The function itself, or the method it turns into when it is bound to an instance later. -/
inductive Becomes (sink : Sink) (f : Function) (m : Machine) : Function → Machine → Prop where
  | same : Becomes sink f m f m
  | bound {owner : Instance} {f' : Function} {m₁ m' : Machine} : Later sink m m₁ →
      Exec.bind f owner m₁ = .ok f' m' → Becomes sink f m f' m'

variable {sink : Sink} {rules : Rules} {f f' : Function} {m m' : Machine} {g : FrameId}
  {x y z : Moment}

/-- A frame around a function stays around it, also when it is bound. -/
theorem Becomes.reaches (h : Becomes sink f m f' m') (hg : g < m.frames.size)
    (hreaches : m.frames.Reaches f.closure g) : m'.frames.Reaches f'.closure g := by
  cases h with
  | same => exact hreaches
  | @bound owner _ m₁ _ hlater hbind =>
    have hgrows := hlater.extends.grows
    have hlt := Nat.lt_of_lt_of_le (hreaches.lt hg) hgrows.size_le
    have hbound := (Restores.bindMethod f owner).of_ok hbind
    have hinside : m'.frames.Reaches f.closure g := hbound.reaches hlt (hreaches.grow hgrows)
    exact .enclosed (enclosing?_of_bind hlt hbind) hinside

/-- The body of a function runs in a frame within those around the function. -/
theorem RunsLater.reaches {rules' : Rules} (h : RunsLater sink f m rules' y)
    (hreaches : m.frames.Reaches f.closure g) :
    y.machine.frames.Reaches y.machine.current g := by
  obtain ⟨x, arguments, line, hlater, hx, hcall, hleads⟩ := h
  obtain ⟨V, hok⟩ := hx.ok
  have hled := hok.led hleads
  obtain ⟨hopens, hhome⟩ := Moment.of_callFunction hcall
  have houter := hled.opened hopens
  rw [hhome] at houter
  exact .enclosed houter ((hreaches.grow hlater.extends.grows).grow hled.grows)

/-! ### Two activations of one function -/

/-- The function is the method, bound to some instance in the machine or before it. -/
inductive BoundBefore (sink : Sink) (method f : Function) : Machine → Prop where
  | mk {owner : Instance} {m₁ m₂ m : Machine} : method.closure < m₁.frames.size →
      Exec.bind method owner m₁ = .ok f m₂ → Later sink m₂ m → BoundBefore sink method f m

theorem BoundBefore.enclosing? {method : Function} (h : BoundBefore sink method f m) :
    m.frames.enclosing? f.closure = some method.closure := by
  obtain ⟨hclosure, hbind, hlater⟩ := h
  exact hlater.extends.grows.enclosing _ _ (enclosing?_of_bind hclosure hbind)

/--
The same function, or one method, bound to two instances or twice to one: each access to a
method binds it again.
-/
inductive Akin (sink : Sink) (m m' : Machine) : Function → Function → Prop where
  | same {f : Function} : Akin sink m m' f f
  | bound {method f f' : Function} : BoundBefore sink method f m → BoundBefore sink method f' m' →
      Akin sink m m' f f'

theorem Akin.level (h : Akin sink m m' f f') (hgrows : Grows m'.frames m.frames) :
    m.frames.Level f.closure f'.closure := by
  cases h with
  | same => exact ⟨0, f.closure, rfl, rfl⟩
  | bound hbound hbound' =>
    have houter' := hgrows.enclosing _ _ hbound'.enclosing?
    exact ⟨1, _, by rw [Frames.ancestor?, hbound.enclosing?]; rfl,
      by rw [Frames.ancestor?, houter']; rfl⟩

/-- Another moment of the session: of the same run, or over before, or later. -/
inductive Another (sink : Sink) (rules : Rules) (start x : Moment) : Rules → Moment → Prop where
  | together {y : Moment} : Passes rules start y → x ≠ y → Another sink rules start x rules y
  | before {rules' : Rules} {y : Moment} : Happens sink rules' y →
      Later sink (y.final rules') x.machine → Another sink rules start x rules' y
  | behind {rules' : Rules} {y : Moment} : Happens sink rules' y →
      Later sink (x.final rules) y.machine → Another sink rules start x rules' y

namespace Another

variable {V : Visit → Prop} {rules' : Rules} {start w : Moment}

theorem ok (h : Another sink rules start x rules' y) (hok : start.Ok V) : ∃ V', y.Ok V' := by
  cases h with
  | together hy _ => exact ⟨V, hok.passes hy⟩
  | before hhappens _ | behind hhappens _ => exact hhappens.ok

/-- A frame that is opened at the other moment is not opened from the one on. -/
theorem not_opens (h : Another sink rules start x rules' y) (hok : start.Ok V)
    (hx : Passes rules start x) (hw : Passes rules x w) (hother : w = x ∨ w ≠ y)
    (hopens : Opens rules w g) : ¬ Opens rules' y g := by
  intro hopens'
  have hsize : w.machine.frames.size = y.machine.frames.size := by
    rw [← hopens.eq_size, ← hopens'.eq_size]
  have hokx := hok.passes hx
  cases h with
  | together hy hne =>
    have heq := hok.opened_once (hx.trans hw) hy hopens hopens'
    rcases hother with rfl | hother
    · exact hne heq
    · exact hother heq
  | before hhappens hlater =>
    obtain ⟨_, hoky⟩ := hhappens.ok
    have hlt := Nat.lt_of_lt_of_le (hopens'.size_lt_final hoky) hlater.extends.grows.size_le
    have hle := (hokx.extends_passes hw).grows.size_le
    exact Nat.ne_of_gt (Nat.lt_of_lt_of_le hlt hle) hsize
  | behind _ hlater =>
    have hlt := hopens.size_lt_final (hokx.passes hw)
    have hle := ((hokx.extends_around hw).trans hlater.extends).grows.size_le
    exact Nat.ne_of_lt (Nat.lt_of_lt_of_le hlt hle) hsize

/-- The one has begun before the other opens its frame, or grows out of what is there then. -/
theorem size_le_or_grows (h : Another sink rules start x rules' y) (hok : start.Ok V)
    (hx : Passes rules start x) (hbody : Leads rules' y z) (hopens : y.task.opens = true) :
    x.machine.frames.size ≤ y.machine.frames.size ∨ Grows z.machine.frames x.machine.frames := by
  cases h with
  | together hy hne => exact hok.size_le_or_grows hx hy hne hbody hopens
  | before hhappens hlater =>
    obtain ⟨_, hoky⟩ := hhappens.ok
    have hend := (hoky.leads hbody).extends_final.trans (hoky.extends_behind hbody)
    exact .inr (hend.trans hlater.extends).grows
  | behind _ hlater =>
    have hextends := (hok.passes hx).extends_final.trans hlater.extends
    exact .inl hextends.grows.size_le

/-- Activations of one function do not see each other's frames. -/
theorem apart (h : Another sink rules start x rules' y) (hok : start.Ok V)
    (hx : Passes rules start x) {arguments arguments' : List Value} {line line' : Nat}
    (hcall : x.task = .callFunction f arguments line)
    (hcall' : y.task = .callFunction f' arguments' line')
    (hakin : Akin sink x.machine y.machine f f') (hopens : Opens rules' y g) {body : Moment}
    (hbody : Leads rules x body) (hinward : Inward rules Task.IsCode body z) :
    ¬ z.machine.frames.Reaches z.machine.current g := by
  intro hreaches
  have hokx := hok.passes hx
  obtain ⟨hopened, hhome⟩ := Moment.of_callFunction hcall
  rcases hokx.seen_inward hbody hopened hinward hreaches with
    ⟨w, hw, hkind, hopensw⟩ | ⟨hlt, haround⟩
  · refine h.not_opens hok hx hw (hkind.imp_right ?_) hopensw hopens
    rintro hcode rfl
    rw [hcall'] at hcode
    exact hcode
  · have hsize := hopens.eq_size
    obtain ⟨body', hbody', hopened', rfl⟩ := hopens
    obtain ⟨_, hoky⟩ := h.ok hok
    obtain ⟨-, hhome'⟩ := Moment.of_callFunction hcall'
    rcases h.size_le_or_grows hok hx hbody' hopened' with hle | hgrows
    · exact Nat.not_lt_of_le hle (hsize ▸ hlt)
    · have hled := hoky.led hbody'
      have hbehind := (hokx.led hbody).grows
      have hinside := (hgrows.trans hbehind).enclosing _ _ (hled.opened hopened')
      rw [hhome'] at hinside
      rw [hhome] at haround
      exact ((hakin.level (hled.grows.trans hgrows)).grow hbehind).not_reaches hinside haround

end Another

/-! ### All runs -/

/-- What becomes of the frames of a run when blocks are executed and functions are called. -/
structure FramesKept (sink : Sink) (rules : Rules) (start : Moment) : Prop where
  /--
  A block, or a call with its arguments, leaves all frames that are there alone, however it
  ends, except where an assignment points that is executed in it.
  -/
  spared : ∀ x, Passes rules start x → x.task.IsInner →
    Spared (fun name f => ∃ z, Passes rules x z ∧ Assigns rules z name f)
      x.machine.frames.size x.machine (x.final rules)
  /-- The frame that it opens was in none of the machines before. -/
  fresh : ∀ x f m, Passes rules start x → Opens rules x f → Later sink m x.machine →
    m.frames.size ≤ f
  /-- No other block and no other call opens this frame. -/
  once : ∀ x rules' y f, Passes rules start x → Another sink rules start x rules' y →
    Opens rules x f → ¬ Opens rules' y f
  /-- The code of one activation of a function does not see the frame of another one. -/
  apart : ∀ x rules' y function function' arguments arguments' line line' f body z,
    Passes rules start x → x.task = .callFunction function arguments line →
    Another sink rules start x rules' y → y.task = .callFunction function' arguments' line' →
    Akin sink x.machine y.machine function function' →
    Opens rules' y f → Leads rules x body → Inward rules Task.IsCode body z →
    ¬ z.machine.frames.Reaches z.machine.current f
  /-- Functions made in one activation see its frame, and so do their bodies in each call. -/
  shared : ∀ x body z f m f' m', Passes rules start x → x.task.opens = true →
    Leads rules x body → Inward rules Task.IsCode body z → Makes rules z f m →
    Becomes sink f m f' m' →
    m'.frames.Reaches f'.closure body.machine.current ∧
      ∀ rules' y, RunsLater sink f' m' rules' y →
        y.machine.frames.Reaches y.machine.current body.machine.current

/-- In every run of a source that compiles, inner code is contained. -/
theorem Reached.frames_kept {units : List Program} {session : Session}
    (h : Reached sink units session) {source : String} {program : Program} {n : NodeId}
    (hcompile : Program.compile source session.nextId = (.ok program, n)) (rules : Rules)
    (fuel : Nat) : FramesKept sink rules (session.start fuel program) := by
  have hok := h.start_ok hcompile fuel
  constructor
  · intro x hpasses hinner
    exact (hok.passes hpasses).spared ⟨Nat.le_refl _, .inl hinner⟩
  · intro x f m _ hopens hlater
    rw [hopens.eq_size]
    exact hlater.extends.grows.size_le
  · intro x rules' y f hx hanother hopens
    exact hanother.not_opens hok hx .start (.inl rfl) hopens
  · intro x rules' y function function' arguments arguments' line line' f body z hx hcall hanother
      hcall' hakin hopens hbody hinward
    exact hanother.apart hok hx hcall hcall' hakin hopens hbody hinward
  · intro x body z f m f' m' hx hopens hbody hinward hmakes hbecomes
    obtain ⟨hlt, hreaches⟩ :=
      hmakes.reaches_activation (hok.passes hx) hbody hopens hinward
    have hreaches' := hbecomes.reaches hlt hreaches
    exact ⟨hreaches', fun rules' y hruns => hruns.reaches hreaches'⟩

/-- A block that assigns to a variable around it. -/
def assignedInBlock : String := "var a = true; \x7b a = false; \x7d"

/-- Behind its first statement, the program executes a block that changes a global. -/
def changesGlobal (rules : Rules) (program : Program) : Bool :=
  match program.statements with
  | [declaration, .block body] =>
    match Exec.execute rules 8 declaration
        ((Machine.initial .unlimited).learn program.distances) with
    | .ok .normal m =>
      match m.global? "a", (Moment.final rules ⟨7, .execute (.block body), m⟩).global? "a" with
      | some (.bool true), some (.bool false) => true
      | _, _ => false
    | _ => false
  | _ => false

theorem assignedInBlock_kept :
    ∃ program n, Program.compile assignedInBlock 0 = (.ok program, n) ∧
      FramesKept .unlimited ⟨1024, .byDistance, fun _ => 0⟩
        ((Session.initial .unlimited).start 9 program) ∧
      ∃ x, Passes ⟨1024, .byDistance, fun _ => 0⟩ ((Session.initial .unlimited).start 9 program) x ∧
        x.task.IsInner ∧
        (x.final ⟨1024, .byDistance, fun _ => 0⟩).frames.findIn? Frames.globalFrame "a" ≠
          x.machine.frames.findIn? Frames.globalFrame "a" := by
  -- The run up to the assignment is evaluated by the decision procedure `changesGlobal`.
  have hruns : (Program.compile assignedInBlock 0).1.toOption.any
      (changesGlobal ⟨1024, .byDistance, fun _ => 0⟩) = true := by decide +kernel
  cases hcompile : Program.compile assignedInBlock 0 with
  | mk compiled n =>
    rw [hcompile] at hruns
    cases compiled with
    | error errors => cases hruns
    | ok program =>
      have hreached : Reached .unlimited [] (Session.initial .unlimited) := .initial
      refine ⟨program, n, rfl, hreached.frames_kept hcompile ⟨1024, .byDistance, fun _ => 0⟩ 9, ?_⟩
      obtain ⟨statements, distances⟩ := program
      change changesGlobal _ _ = true at hruns
      unfold changesGlobal at hruns
      split at hruns
      · rename_i declaration body hstatements
        cases hstatements
        split at hruns
        · rename_i m hdeclaration
          split at hruns
          · rename_i hbefore hafter
            -- The block is executed as the first of the remaining statements, and changes `a`.
            refine ⟨_, (Passes.start.step (.nextStmts hdeclaration)).step .firstStmt, trivial, ?_⟩
            intro heq
            change _ = some (Value.bool true) at hbefore
            change _ = some (Value.bool false) at hafter
            cases hafter.symm.trans (heq.trans hbefore)
          · cases hruns
        · cases hruns
      · cases hruns

end Lox
