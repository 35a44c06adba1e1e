import Mathlib.Data.List.Forall2
import Lox.Operators

/-!
# Values seen from outside

Without a call, a value is only seen from outside.  Of a number or a text everything is
seen, but of a function, class or instance no more than its identity and the number of its
parameters.  Values that agree in this are similar: tests, comparisons and operators have
the same results for them.  Which method a name stands for and what a field holds is found
by names alone, so there corresponds what corresponds for each name.
-/

namespace Lox

/-! ### Fields -/

namespace Bindings

variable {α : Type}

/-- A new instance has no fields. -/
theorem find?_getD_push (fields : Array (Bindings α)) (i : Nat) (name : String) :
    ((fields.push .empty).getD i .empty).find? name = (fields.getD i .empty).find? name := by
  rw [Array.getD_eq_getD_getElem?, Array.getD_eq_getD_getElem?, Array.getElem?_push]
  split
  · rename_i heq
    rw [Array.getElem?_eq_none (Nat.le_of_eq heq.symm)]
    rfl
  · rfl

/-- To set a field of an instance changes this field and nothing else. -/
theorem find?_getD_modify (fields : Array (Bindings α)) (owner : Nat) (field : String) (a : α)
    (i : Nat) (name : String) :
    ((fields.modify owner fun bindings => bindings.insert field a).getD i .empty).find? name =
      if (i = owner ∧ i < fields.size) ∧ name = field then some a
      else (fields.getD i .empty).find? name := by
  rw [Array.getD_eq_getD_getElem?, Array.getD_eq_getD_getElem?, Array.getElem?_modify]
  by_cases hi : i < fields.size
  · rw [Array.getElem?_eq_getElem hi]
    by_cases hsame : owner = i
    · simp [hsame, hi, find?_insert]
    · have hne : ¬ i = owner := fun heq => hsame heq.symm
      simp [hsame, hne]
  · rw [Array.getElem?_eq_none (Nat.le_of_not_lt hi)]
    simp [hi]

end Bindings

/-! ### Methods -/

/-- What may be absent is related to itself if everything that it can be is. -/
theorem Option.Rel.self {α : Type} {R : α → α → Prop} {a? : Option α}
    (h : ∀ a, a? = some a → R a a) : Option.Rel R a? a? := by
  cases a? with
  | none => exact .none
  | some a => exact .some (h a rfl)

namespace Class

variable {R : Function → Function → Prop} {c c' : Class}

/-- The nearest methods of a name correspond if those of each layer do. -/
theorem rel_findMethod? {name : String}
    (h : List.Forall₂ (fun layer layer' : ClassLayer =>
      Option.Rel R (layer.methods.find? name) (layer'.methods.find? name)) c.chain c'.chain) :
    Option.Rel R (c.findMethod? name) (c'.findMethod? name) := by
  unfold findMethod?
  generalize c.chain = layers at h ⊢
  generalize c'.chain = layers' at h ⊢
  induction h with
  | nil => exact .none
  | @cons layer layer' _ _ hlayer _ ih =>
    rw [List.findSome?_cons, List.findSome?_cons]
    generalize layer.methods.find? name = f at hlayer ⊢
    generalize layer'.methods.find? name = f' at hlayer ⊢
    cases hlayer with
    | some hf => exact .some hf
    | none => exact ih

/-- A class takes as many arguments as its initializer, or none. -/
theorem arity_eq_of_rel (h : Option.Rel R (c.findMethod? initializerName)
      (c'.findMethod? initializerName)) (hR : ∀ f f', R f f' → f'.arity = f.arity) :
    c'.arity = c.arity := by
  unfold arity initializer?
  generalize c.findMethod? initializerName = f at h ⊢
  generalize c'.findMethod? initializerName = f' at h ⊢
  cases h with
  | some hf => exact hR _ _ hf
  | none => rfl

end Class

namespace Value

/-- Values that hold no code. -/
def Plain : Value → Prop
  | .nil | .bool _ | .number _ | .string _ => True
  | _ => False

theorem plain_ofLiteral (literal : Literal) : (ofLiteral literal).Plain := by
  cases literal <;> trivial

/-! ### Tests -/

/-- Values that cannot be told apart without a call. -/
inductive Similar : Value → Value → Prop where
  | nil : Similar .nil .nil
  | bool {b : Bool} : Similar (.bool b) (.bool b)
  | number {x : Float} : Similar (.number x) (.number x)
  | string {text : String} : Similar (.string text) (.string text)
  | native {native : Native} : Similar (.native native) (.native native)
  | function {f f' : Function} :
      f'.id = f.id → f'.arity = f.arity → Similar (.function f) (.function f')
  | class {c c' : Class} : c'.id = c.id → c'.arity = c.arity → Similar (.class c) (.class c')
  | object {owner owner' : Instance} :
      owner'.id = owner.id → Similar (.object owner) (.object owner')

namespace Similar

variable {value value' left left' right right' : Value}

theorem refl (value : Value) : Similar value value := by
  cases value with
  | nil => exact .nil
  | bool => exact .bool
  | number => exact .number
  | string => exact .string
  | native => exact .native
  | function => exact .function rfl rfl
  | «class» => exact .class rfl rfl
  | object => exact .object rfl

theorem arity? (h : Similar value value') : value'.arity? = value.arity? := by
  cases h with
  | function _ harity => exact congrArg some harity
  | «class» _ harity => exact congrArg some harity
  | _ => rfl

theorem isTruthy (h : Similar value value') : value'.isTruthy = value.isTruthy := by
  cases h with
  | _ => rfl

theorem equals (hleft : Similar left left') (hright : Similar right right') :
    left'.equals right' = left.equals right := by
  cases hleft with
  | function hid _ =>
    cases hright with
    | function hid' _ => simp only [Value.equals, hid, hid']
    | _ => rfl
  | «class» hid _ =>
    cases hright with
    | «class» hid' _ => simp only [Value.equals, hid, hid']
    | _ => rfl
  | object hid =>
    cases hright with
    | object hid' => simp only [Value.equals, hid, hid']
    | _ => rfl
  | _ =>
    cases hright with
    | _ => rfl

end Similar

end Value

/-! ### Operators -/

def RuntimeCause.OfOperator : RuntimeCause → Prop
  | .operandNotNumber | .operandsNotNumbers | .operandsNotStrings | .operandsNotAddable
  | .divisionByZero | .invalidUnaryOperator | .invalidBinaryOperator => True
  | _ => False

namespace Operator

/-- The same plain value, or the same error of an operator except for its line. -/
inductive Same (n n' : Nat) : Except RuntimeError Value → Except RuntimeError Value → Prop where
  | ok {value : Value} : value.Plain → Same n n' (.ok value) (.ok value)
  | error {cause : RuntimeCause} :
      cause.OfOperator → Same n n' (.error ⟨cause, n⟩) (.error ⟨cause, n'⟩)

variable {operator operator' : Token} {value value' left left' right right' : Value} {n n' : Nat}

theorem Same.plain {result result' : Except RuntimeError Value} (h : Same n n' result result')
    (hok : result = .ok value) : value.Plain := by
  subst hok
  cases h with
  | ok hplain => exact hplain

theorem same_unary (hkind : operator'.kind = operator.kind) (h : value.Similar value') :
    Same operator.line operator'.line (unary operator value) (unary operator' value') := by
  unfold unary
  rw [hkind, h.isTruthy]
  generalize operator.kind = kind
  cases kind with
  | bang => exact .ok trivial
  | minus =>
    cases h with
    | number => exact .ok trivial
    | _ => exact .error trivial
  | _ => exact .error trivial

theorem same_plus (hleft : left.Similar left') (hright : right.Similar right') :
    Same n n' (plus n left right) (plus n' left' right') := by
  cases hleft with
  | number =>
    cases hright with
    | number => exact .ok trivial
    | _ => exact .error trivial
  | string =>
    cases hright with
    | string => exact .ok trivial
    | _ => exact .error trivial
  | _ => exact .error trivial

theorem same_onNumbers {operation : Float → Float → Value}
    (hplain : ∀ x y, (operation x y).Plain) (hleft : left.Similar left')
    (hright : right.Similar right') :
    Same n n' (onNumbers n operation left right) (onNumbers n' operation left' right') := by
  cases hleft with
  | number =>
    cases hright with
    | number => exact .ok (hplain _ _)
    | _ => exact .error trivial
  | _ => exact .error trivial

theorem same_onDivisible (operation : Float → Float → Float) (hleft : left.Similar left')
    (hright : right.Similar right') :
    Same n n' (onDivisible n operation left right) (onDivisible n' operation left' right') := by
  cases hleft with
  | number =>
    cases hright with
    | @number y =>
      unfold onDivisible
      by_cases hzero : (y == 0.0) = true
      · simp only [hzero, if_true]
        exact .error trivial
      · simp only [hzero]
        exact .ok trivial
    | _ => exact .error trivial
  | _ => exact .error trivial

theorem same_binary (hkind : operator'.kind = operator.kind) (hleft : left.Similar left')
    (hright : right.Similar right') :
    Same operator.line operator'.line (binary operator left right)
      (binary operator' left' right') := by
  simp only [binary, hkind, hleft.equals hright]
  split
  · exact same_plus hleft hright
  all_goals first
    | exact same_onNumbers (fun _ _ => trivial) hleft hright
    | exact same_onDivisible _ hleft hright
    | exact .ok trivial
    | exact .error trivial

theorem same_unary_self (operator : Token) (value : Value) :
    Same operator.line operator.line (unary operator value) (unary operator value) :=
  same_unary rfl (.refl value)

theorem same_binary_self (operator : Token) (left right : Value) :
    Same operator.line operator.line (binary operator left right) (binary operator left right) :=
  same_binary rfl (.refl left) (.refl right)

theorem decides_similar (hkind : operator'.kind = operator.kind) (h : value.Similar value') :
    decides operator' value' = decides operator value := by
  unfold decides
  rw [hkind, h.isTruthy]

end Operator

end Lox
