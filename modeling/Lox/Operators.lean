import Lox.Value

/-!
# Operators

What the operators do with values that are already there.  A token that is no
operator of the kind asked for has a cause of its own.
-/

namespace Lox

namespace Operator

def unary (operator : Token) (operand : Value) : Except RuntimeError Value :=
  match operator.kind, operand with
  | .minus, .number x => .ok (.number (-x))
  | .minus, _ => .error ⟨.operandNotNumber, operator.line⟩
  | .bang, _ => .ok (.bool !operand.isTruthy)
  | _, _ => .error ⟨.invalidUnaryOperator, operator.line⟩

def plus (line : Nat) : Value → Value → Except RuntimeError Value
  | .number x, .number y => .ok (.number (x + y))
  | .number _, _ => .error ⟨.operandNotNumber, line⟩
  | .string a, .string b => .ok (.string (a ++ b))
  | .string _, _ => .error ⟨.operandsNotStrings, line⟩
  | _, _ => .error ⟨.operandsNotAddable, line⟩

def onNumbers (line : Nat) (operation : Float → Float → Value) :
    Value → Value → Except RuntimeError Value
  | .number x, .number y => .ok (operation x y)
  | _, _ => .error ⟨.operandsNotNumbers, line⟩

def onDivisible (line : Nat) (operation : Float → Float → Float) :
    Value → Value → Except RuntimeError Value
  | .number x, .number y =>
    if y == 0.0 then .error ⟨.divisionByZero, line⟩ else .ok (.number (operation x y))
  | _, _ => .error ⟨.operandsNotNumbers, line⟩

/-- An operator between two operands, both of which are evaluated. -/
def binary (operator : Token) (left right : Value) : Except RuntimeError Value :=
  let line := operator.line
  match operator.kind with
  | .plus => plus line left right
  | .minus => onNumbers line (fun x y => .number (x - y)) left right
  | .star => onNumbers line (fun x y => .number (x * y)) left right
  | .slash => onDivisible line (fun x y => x / y) left right
  | .percent => onDivisible line Number.remainder left right
  | .greater => onNumbers line (fun x y => .bool (x > y)) left right
  | .greaterEqual => onNumbers line (fun x y => .bool (x ≥ y)) left right
  | .less => onNumbers line (fun x y => .bool (x < y)) left right
  | .lessEqual => onNumbers line (fun x y => .bool (x ≤ y)) left right
  | .equalEqual => .ok (.bool (left.equals right))
  | .bangEqual => .ok (.bool !left.equals right)
  | _ => .error ⟨.invalidBinaryOperator, line⟩

/--
Whether the left operand of a logical operator is already the result: one that
counts as true for `or`, and one that counts as false for `and`.
-/
def decides (operator : Token) (left : Value) : Bool :=
  if operator.kind = .kwOr then left.isTruthy else !left.isTruthy

end Operator

end Lox
