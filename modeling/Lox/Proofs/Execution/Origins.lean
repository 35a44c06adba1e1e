import Lox.Proofs.Execution.Chronicled
import Lox.Proofs.Execution.Functions

/-!
# Where code comes from

The code that a run executes comes from the program that is run, or from an earlier one.
It is that of the program itself, or of a function that is called, and a function comes
from where its declaration was executed, or where the method was declared that was bound.
Every function has a number, and the ones that were there when the run started have the
smaller numbers.
-/

namespace Lox

open Exec

/-- Where code comes from: the program that is run, or one that was run before. -/
inductive Origin where
  | program
  | earlier

mutual

/--
The code of a moment comes from there: the code of the program itself, the parts of code of
this origin, and the bodies of functions of this origin.
-/
inductive CodeOf (rules : Rules) (start : Moment) : Origin → Moment → Prop where
  | start : CodeOf rules start .program start
  | part {origin : Origin} {x y : Moment} : CodeOf rules start origin x → Leads rules x y →
      y.task.IsCode → CodeOf rules start origin y
  | body {origin : Origin} {x y : Moment} {f : Function} {arguments : List Value} {line : Nat} :
      Passes rules start x → x.task = .callFunction f arguments line →
      FunctionOf rules start origin f → Leads rules x y → CodeOf rules start origin y

/--
The declaration of a function comes from there: an earlier program if the function was there
when the run started, the code that made it, and what the method comes from that was bound.
-/
inductive FunctionOf (rules : Rules) (start : Moment) : Origin → Function → Prop where
  | earlier {f : Function} : f.id < start.machine.nextIdentity →
      FunctionOf rules start .earlier f
  | declared {origin : Origin} {x : Moment} {f : Function} {m : Machine} :
      CodeOf rules start origin x → Makes rules x f m → FunctionOf rules start origin f
  | bound {origin : Origin} {x : Moment} {method f : Function} : Passes rules start x →
      BindsMethod rules x method f → FunctionOf rules start origin method →
      FunctionOf rules start origin f

end

theorem CodeOf.passes {rules : Rules} {start : Moment} :
    ∀ {origin : Origin} {x : Moment}, CodeOf rules start origin x → Passes rules start x
  | _, _, .start => .start
  | _, _, .part hx hleads _ => hx.passes.step hleads
  | _, _, .body hx _ _ hleads => hx.step hleads

/-! ### Numbers -/

variable {rules : Rules} {start x y : Moment} {f method : Function} {V : Visit → Prop} {o : Outset} {g : Census} {m : Machine}

theorem Function.In.id_lt (hf : f.In g) (hm : m.In g) : f.id < m.nextIdentity := by
  rw [← hm.made]
  exact (List.getElem?_eq_some_iff.mp hf).1

theorem Function.In.eq_of_id {f' : Function} (hf : f.In g) (hf' : f'.In g) (hid : f'.id = f.id) :
    f' = f := by
  unfold Function.In at hf hf'
  rw [hid, hf] at hf'
  cases hf'
  rfl

/-- What the call of a function leads to is the code of its body. -/
theorem Leads.isCode_of_callFunction {arguments : List Value} {line : Nat}
    (h : Leads rules x y) (hcall : x.task = .callFunction f arguments line) : y.task.IsCode := by
  obtain ⟨fuel, task, m⟩ := x
  cases hcall
  cases h
  trivial

theorem Machine.In.le_of_within {g' : Census} {m' : Machine} (hm : m.In g) (hm' : m'.In g')
    (hle : g.Within g') : m.nextIdentity ≤ m'.nextIdentity := by
  rw [← hm.made, ← hm'.made]
  exact hle.made.length_le

namespace Chronicle

/-- When a task begins, all that it was given and that its machine holds is in the census. -/
theorem begun (h : Chronicle o g (start.trace rules) m) (hx : Passes rules start x) :
    ∃ g', g'.Within g ∧ x.machine.In g' ∧
      ∀ value, (Event.begins rules x).Shows value → value.In g' := by
  obtain ⟨g', hle, -, hm, hshown⟩ := h.of_mem (Moment.begins_mem_trace_iff.mpr ⟨rfl, hx⟩)
  exact ⟨g', hle, hm, hshown⟩

/-- When a task has ended, all that it has yielded and that its machine holds is in the census. -/
theorem ended (h : Chronicle o g (start.trace rules) m) (hx : Passes rules start x) :
    ∃ g', g'.Within g ∧ (x.final rules).In g' ∧
      ∀ value, (Event.ends rules x).Shows value → value.In g' := by
  obtain ⟨g', hle, -, hm, hshown⟩ := h.of_mem (Moment.ends_mem_trace hx)
  exact ⟨g', hle, hm, hshown⟩

/-- Numbers are given in the order of a run. -/
theorem nextIdentity_le (h : Chronicle o g (start.trace rules) m) (hx : Passes rules start x)
    (hy : Passes rules x y) : x.machine.nextIdentity ≤ y.machine.nextIdentity := by
  obtain ⟨g₁, -, hm₁, hshown⟩ := h.begun hx
  obtain ⟨g₂, hown⟩ := Moment.chronicle hm₁ (fun value hvalue => hshown value (.handled hvalue)) rules
  obtain ⟨g₃, -, hle, hm₃, -⟩ := hown.of_mem (Moment.begins_mem_trace_iff.mpr ⟨rfl, hy⟩)
  exact hm₁.le_of_within hm₃ hle

/-- A function that is called is in the census. -/
theorem of_callFunction {arguments : List Value} {line : Nat}
    (h : Chronicle o g (start.trace rules) m) (hx : Passes rules start x)
    (hcall : x.task = .callFunction f arguments line) :
    ∃ g', g'.Within g ∧ x.machine.In g' ∧ f.In g' := by
  obtain ⟨g', hle, hm, hshown⟩ := h.begun hx
  refine ⟨g', hle, hm, hshown (.function f) (.handled ?_)⟩
  rw [Event.values, hcall]
  exact List.mem_cons_self

/-- A function that a task has made is in the census. -/
theorem of_makes {m' : Machine} (h : Chronicle o g (start.trace rules) m)
    (hx : Passes rules start x) (hmakes : Makes rules x f m') : f.In g := by
  obtain ⟨g', hle, -, hshown⟩ := h.ended hx
  have hfinal := hmakes.final
  have hshows : (Event.ends rules x).Shows (.function f) := by
    cases hmakes with
    | function _ hfound => exact .held (.inl ⟨_, _, by rw [Event.machine, hfinal]; exact hfound⟩)
    | method _ hfound hmethod =>
      exact .method (.held (.inl ⟨_, _, by rw [Event.machine, hfinal]; exact hfound⟩)) hmethod
  exact Function.In.mono hle (hshown _ hshows)

/-- A method is older than the function that it is bound in, and both are in the census. -/
theorem of_bindsMethod (h : Chronicle o g (start.trace rules) m)
    (hx : Passes rules start x) (hbinds : BindsMethod rules x method f) :
    f.In g ∧ method.In g ∧ method.id < f.id := by
  cases hbinds with
  -- A property: the function is what the evaluation yields, the method is one of the class of
  -- the object, which a part of the evaluation yields.
  | @property fuel m₀ object name owner m₁ _ _ m₂ hobject hfield hmethod hbind =>
    have hyields : (Event.ends rules ⟨fuel + 1, .evaluate (.get object name), m₀⟩).Shows
        (.function f) := by
      refine .handled ?_
      have hrun : Exec.evaluate rules (fuel + 1) (.get object name) m₀ = .ok (.function f) m₂ := by
        rw [Exec.evaluate]
        exact (bind_of_ok hobject).trans (getProperty_of_findMethod? hfield hmethod hbind)
      simp only [Event.values, Moment.yielded, hrun, yieldOf, List.mem_singleton]
    obtain ⟨g₁, hle₁, -, hshown₁⟩ := h.ended hx
    obtain ⟨g₂, hle₂, hm₂, hshown₂⟩ := h.ended (hx.step .get)
    have hobject' : (Event.ends rules ⟨fuel, .evaluate object, m₀⟩).Shows (.object owner) := by
      refine .handled ?_
      simp only [Event.values, Moment.yielded, hobject, yieldOf, List.mem_singleton]
    have hmethodIn : method.In g₂ := (Class.In.findMethod? (hshown₂ _ (.cls hobject')) hmethod).1
    refine ⟨Function.In.mono hle₁ (hshown₁ _ hyields), hmethodIn.mono hle₂, ?_⟩
    have hlt := hmethodIn.id_lt hm₂
    rw [(of_bind hbind).1]
    simpa only [Moment.final, hobject, endOf] using hlt
  -- A superclass: the method is one of the class that the frame holds when the evaluation begins.
  | @super fuel m₀ place name distance parent owner _ _ m₁ hd hparent howner hmethod hbind =>
    have hyields : (Event.ends rules ⟨fuel + 1, .evaluate (.super place name), m₀⟩).Shows
        (.function f) := by
      refine .handled ?_
      have hrun : Exec.evaluate rules (fuel + 1) (.super place name) m₀ = .ok (.function f) m₁ := by
        rw [Exec.evaluate]
        exact getSuper_of_findMethod? hd hparent howner hmethod hbind
      simp only [Event.values, Moment.yielded, hrun, yieldOf, List.mem_singleton]
    obtain ⟨g₁, hle₁, -, hshown₁⟩ := h.ended hx
    obtain ⟨g₂, hle₂, hm₂, -⟩ := h.begun hx
    have hmethodIn : method.In g₂ := (Class.In.findMethod? (hm₂.getAt hparent) hmethod).1
    refine ⟨Function.In.mono hle₁ (hshown₁ _ hyields), hmethodIn.mono hle₂, ?_⟩
    rw [(of_bind hbind).1]
    exact hmethodIn.id_lt hm₂
  -- An initializer: the method is one of the class that is called, which the call is handed.
  | @initializer fuel m₀ c arguments line owner m₁ _ _ m₂ hinstance hmethod hbind =>
    obtain ⟨g₁, hle₁, -, hshown₁⟩ := h.begun (hx.step (.initializer hinstance hmethod hbind))
    obtain ⟨g₂, hle₂, hm₂, hshown₂⟩ := h.begun hx
    have hmethodIn : method.In g₂ :=
      (Class.In.findMethod? (hshown₂ _ (.handled List.mem_cons_self)) hmethod).1
    refine ⟨Function.In.mono hle₁ (hshown₁ (.function f) (.handled List.mem_cons_self)),
      hmethodIn.mono hle₂, ?_⟩
    -- Between the census with the method and the binding, the machine has only made the instance.
    have hlt := hmethodIn.id_lt hm₂
    rw [(of_bind hbind).1]
    cases hinstance
    exact hlt

end Chronicle

/-! ### All code has an origin -/

section

variable (h : Chronicle o g (start.trace rules) m)

include h

/-- If the functions that are there have an origin, all code up to that time has one. -/
theorem CodeOf.exists_of_functions {n : Nat}
    (hfunctions : ∀ f : Function, f.In g → f.id < n → ∃ origin, FunctionOf rules start origin f)
    (hx : Passes rules start x) (hcode : x.task.IsCode) (hle : x.machine.nextIdentity ≤ n) :
    ∃ origin, CodeOf rules start origin x := by
  induction hx with
  | start => exact ⟨_, .start⟩
  | @step x y hx hleads ih =>
    have hle' := Nat.le_trans (h.nextIdentity_le hx (Passes.start.step hleads)) hle
    obtain ⟨fuel, task, m₀⟩ := x
    cases task with
    | call => cases hleads <;> cases hcode
    | callFunction f arguments line =>
      obtain ⟨g', hwithin, hm, hf⟩ := h.of_callFunction hx rfl
      obtain ⟨origin, horigin⟩ := hfunctions f (hf.mono hwithin)
        (Nat.lt_of_lt_of_le (hf.id_lt hm) hle')
      exact ⟨origin, .body hx rfl horigin hleads⟩
    | _ =>
      obtain ⟨origin, horigin⟩ := ih trivial hle'
      exact ⟨origin, .part horigin hleads hcode⟩

variable (ho : o.machine = start.machine) (hok : start.Ok V)

include ho hok

/-- Every function of a run has an origin. -/
theorem FunctionOf.exists_of_In (hf : f.In g) : ∃ origin, FunctionOf rules start origin f := by
  induction hid : f.id using Nat.strongRecOn generalizing f with
  | ind n ih =>
    subst hid
    rcases h.arises f hf with hthere | harises
    · refine ⟨_, .earlier ?_⟩
      rw [← ho]
      exact hthere.id_lt o.made
    · cases harises with
      | @declared _ x hbegins hcode hmakes =>
        obtain ⟨rfl, hx⟩ := Moment.begins_mem_trace_iff.mp hbegins
        have hokx := hok.passes hx
        obtain ⟨scopes, hhere⟩ := hokx.here hcode
        have hcurrent := Mirrors.lt hhere hokx.sound.global
        obtain ⟨m', hmakes⟩ := hmakes hcurrent
        obtain ⟨origin, horigin⟩ := CodeOf.exists_of_functions h
          (fun f' hf' hlt => ih f'.id hlt hf' rfl) hx hcode (hmakes.nextIdentity_le hcurrent)
        exact ⟨origin, .declared horigin hmakes⟩
      | @bound _ x method hbegins hbinds =>
        obtain ⟨rfl, hx⟩ := Moment.begins_mem_trace_iff.mp hbegins
        obtain ⟨-, hmethod, hlt⟩ := h.of_bindsMethod hx hbinds
        obtain ⟨origin, horigin⟩ := ih method.id hlt hmethod rfl
        exact ⟨origin, .bound hx hbinds horigin⟩

/-- All code that a run executes has an origin. -/
theorem CodeOf.exists_of_passes (hx : Passes rules start x) (hcode : x.task.IsCode) :
    ∃ origin, CodeOf rules start origin x :=
  exists_of_functions h (fun _ hf _ => FunctionOf.exists_of_In h ho hok hf) hx hcode
    (Nat.le_refl _)

end

end Lox
