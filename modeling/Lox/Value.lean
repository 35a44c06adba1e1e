import Lox.Frames
import Lox.Number
import Lox.Tree

/-!
# Values

Numbers, strings, truth values and `nil` are equal when they say the same.
Functions, classes and instances have an identity, and are equal only to
themselves: reading a method twice gives two different functions.  A class never
changes once it is made and is therefore a value in itself, together with the
classes it inherits from.  The fields of an instance do change, so they are not
part of the value but are kept by the machine under the instance's identity.
-/

namespace Lox

/-- The identity of a function, class or instance among those of its kind. -/
abbrev Identity := Nat

inductive Native where
  | clock
  | print
  deriving DecidableEq, Repr

namespace Native

def all : List Native := [clock, print]

def name : Native → String
  | clock => "clock"
  | print => "print"

def arity : Native → Nat
  | clock => 0
  | print => 1

end Native

structure Function where
  id : Identity
  declaration : FunctionDecl
  closure : FrameId
  /-- A call of an initializer returns the instance, whatever the body returns. -/
  isInitializer : Bool

namespace Function

def name (function : Function) : String := function.declaration.name.lexeme

def arity (function : Function) : Nat := function.declaration.arity

end Function

/-- What one class declaration adds to the classes it inherits from. -/
structure ClassLayer where
  id : Identity
  name : String
  methods : Bindings Function

/-- A class: its own layer, and those of its superclasses, the nearest first. -/
structure Class where
  layer : ClassLayer
  inherited : List ClassLayer

namespace Class

def id (c : Class) : Identity := c.layer.id

def name (c : Class) : String := c.layer.name

def chain (c : Class) : List ClassLayer := c.layer :: c.inherited

def findMethod? (c : Class) (name : String) : Option Function :=
  c.chain.findSome? fun layer => layer.methods.find? name

def initializer? (c : Class) : Option Function := c.findMethod? initializerName

def arity (c : Class) : Nat := (c.initializer?.map Function.arity).getD 0

end Class

structure Instance where
  id : Identity
  cls : Class

inductive Value where
  | nil
  | bool (value : Bool)
  | number (value : Float)
  | string (text : String)
  | native (native : Native)
  | function (function : Function)
  | class (value : Class)
  | object (value : Instance)

namespace Value

instance : Inhabited Value := ⟨nil⟩

def ofLiteral : Literal → Value
  | .number value => number value
  | .string text => string text
  | .bool value => bool value
  | .nil => nil

def isTruthy : Value → Bool
  | nil | bool false => false
  | _ => true

def equals : Value → Value → Bool
  | nil, nil => true
  | bool a, bool b => a = b
  | number a, number b => a == b
  | string a, string b => a = b
  | native a, native b => a = b
  | function a, function b => a.id = b.id
  | .class a, .class b => a.id = b.id
  | object a, object b => a.id = b.id
  | _, _ => false

def display : Value → String
  | nil => "nil"
  | bool true => "true"
  | bool false => "false"
  | number value => Number.display value
  | string text => text
  | native f => "<native fn " ++ f.name ++ ">"
  | function f => "<fn " ++ f.name ++ ">"
  | .class value => value.name
  | object value => value.cls.name ++ " instance"

def arity? : Value → Option Nat
  | native f => some f.arity
  | function f => some f.arity
  | .class value => some value.arity
  | _ => none

end Value

end Lox
