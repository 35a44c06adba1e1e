import Lox.Evaluator
import Lox.Proofs.Likeness.Lookup

/-!
# Operations on values that look alike

What does not look into the code of functions cannot tell values apart that look
alike: tests, comparisons, operators, and what is shown of a value.
-/

namespace Lox

variable {K : Likeness} {line : Nat → Nat → Prop} {W : World} {frames : Frames Value}
  {m m' : Machine} {rules : Rules}

/-! ### Names and numbers of parameters -/

theorem FunctionLike.arity {Γ : Surroundings} {d d' : FunctionDecl} (h : FunctionLike K Γ d d') :
    d'.arity = d.arity := by
  cases h with
  | mk _ _ hparameters _ => exact hparameters.length_eq.symm

theorem ClosureLike.arity {bound : Bool} {f f' : Function}
    (h : ClosureLike K W frames bound f f') : f'.arity = f.arity := by
  obtain ⟨Γ, hcode, -⟩ := h.declaration
  exact hcode.arity

theorem ClassLike.arity {c c' : Class} (h : ClassLike K W frames c c') : c'.arity = c.arity :=
  Class.arity_eq_of_rel (h.findMethod? initializerName) fun _ _ hf => hf.arity

theorem ClassLike.layer {c c' : Class} (h : ClassLike K W frames c c') :
    LayerLike K W frames c.layer c'.layer := by
  cases h with
  | cons hlayer _ => exact hlayer

theorem ClassLike.id {c c' : Class} (h : ClassLike K W frames c c') : c'.id = c.id := h.layer.id

namespace ValueLike

variable {value value' : Value}

/-- Values that look alike cannot be told apart without a call. -/
theorem similar (h : ValueLike K W frames value value') : value.Similar value' := by
  cases h with
  | nil => exact .nil
  | bool => exact .bool
  | number => exact .number
  | string => exact .string
  | native => exact .native
  | function hf => exact .function hf.id hf.arity
  | «class» hc => exact .class (ClassLike.id hc) (ClassLike.arity hc)
  | object hid _ => exact .object hid

theorem of_plain (h : value.Plain) : ValueLike K W frames value value := by
  cases value with
  | nil => exact .nil
  | bool => exact .bool
  | number => exact .number
  | string => exact .string
  | _ => cases h

theorem display (htoken : ∀ t t', K.token t t' → t'.lexeme = t.lexeme)
    (h : ValueLike K W frames value value') : value'.display = value.display := by
  cases h with
  | function hf =>
    obtain ⟨Γ, hcode, -⟩ := hf.declaration
    simp only [Value.display, Function.name, htoken _ _ hcode.name]
  | «class» hc => simp only [Value.display, Class.name, (ClassLike.layer hc).name]
  | object _ hc => simp only [Value.display, Class.name, (ClassLike.layer hc).name]
  | _ => rfl

end ValueLike

/-- The same result of an operator looks alike. -/
theorem Operator.Same.like {n n' : Nat} {result result' : Except RuntimeError Value}
    (h : Operator.Same n n' result result') (hline : line n n') :
    ExceptLike line (ValueLike K W frames) result result' := by
  cases h with
  | ok hplain => exact .ok (.of_plain hplain)
  | error => exact .error ⟨.same _, hline⟩

/-! ### Calls -/

abbrev ValuesLike (K : Likeness) (W : World) (frames : Frames Value) :
    List Value → List Value → Prop :=
  List.Forall₂ (ValueLike K W frames)

theorem ValuesLike.evolve {W' : World} {frames' : Frames Value}
    (hevolves : Evolves W frames W' frames') {values values' : List Value}
    (h : ValuesLike K W frames values values') : ValuesLike K W' frames' values values' :=
  List.Forall₂.imp (fun _ _ hv => hv.evolve hevolves) h

namespace Alike

variable {n n' : Nat}

abbrev Yields (K : Likeness) (W : World) (m : Machine) (value value' : Value) : Prop :=
  ValueLike K W m.frames value value'

theorem checkCall (h : MachineLike K line W m m') {callee callee' : Value}
    (hcallee : callee'.arity? = callee.arity?) (count : Nat) (hline : line n n') :
    Alike K line W m (fun _ _ _ _ => True) (Exec.checkCall rules callee count n m)
      (Exec.checkCall rules callee' count n' m') := by
  unfold Exec.checkCall
  rw [hcallee]
  cases callee.arity? with
  | none => exact fail h _ hline
  | some arity =>
    by_cases hcount : count = arity
    · simp only [hcount, ne_eq, not_true_eq_false, if_false]
      apply get_bind
      rw [h.depth]
      split
      · exact fail h _ hline
      · exact pure h trivial
    · simp only [hcount, ne_eq, not_false_eq_true, if_true]
      exact fail h _ hline

theorem callNative (h : MachineLike K line W m m') (native : Native)
    {arguments arguments' : List Value} (harguments : ValuesLike K W m.frames arguments arguments')
    (hline : line n n') :
    Alike K line W m (Yields K) (Exec.callNative rules native arguments n m)
      (Exec.callNative rules native arguments' n' m') := by
  unfold Exec.callNative
  cases native with
  | clock =>
    apply bind (readClock h rules)
    rintro W₁ m₁ m₁' x x' - hlike rfl
    exact pure hlike .number
  | print =>
    have hdisplay : (arguments'.headD .nil).display = (arguments.headD .nil).display := by
      cases harguments with
      | nil => rfl
      | cons hvalue _ =>
        exact hvalue.display fun t t' ht => (h.faithful.token t t' ht).2.1
    simp only [hdisplay]
    apply bind (write h _ hline)
    intro W₁ m₁ m₁' _ _ _ hlike₁ _
    apply bind (write hlike₁ _ hline)
    intro W₂ m₂ m₂' _ _ _ hlike₂ _
    exact pure hlike₂ .nil

end Alike

end Lox
