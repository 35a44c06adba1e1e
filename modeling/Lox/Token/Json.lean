import Lox.Text.Quoted
import Lox.Token.Item

/-!
# Tokens in JSON

The listing of tokens for other programs: an array of objects, indented by two
blanks per level.  The kind of a string or number is an object that also holds
its content or value.
-/

namespace Lox

inductive Json where
  /-- A value that is already written out. -/
  | atom (text : String)
  | object (fields : List (String × Json))
  | array (elements : List Json)

namespace Json

def newLine (level : Nat) : String := String.ofList ('\n' :: List.replicate (2 * level) ' ')

mutual

def render (level : Nat) : Json → String
  | atom text => text
  | object [] => "\x7b\x7d"
  | object (field :: fields) =>
    "\x7b" ++ newLine (level + 1) ++ renderField (level + 1) field
      ++ renderFields (level + 1) fields ++ newLine level ++ "\x7d"
  | array [] => "[]"
  | array (element :: elements) =>
    "[" ++ newLine (level + 1) ++ element.render (level + 1)
      ++ renderElements (level + 1) elements ++ newLine level ++ "]"
termination_by structural json => json

def renderField (level : Nat) : String × Json → String
  | (name, value) => Text.jsonString name ++ ": " ++ value.render level
termination_by structural field => field

def renderFields (level : Nat) : List (String × Json) → String
  | [] => ""
  | field :: rest => "," ++ newLine level ++ renderField level field ++ renderFields level rest
termination_by structural fields => fields

def renderElements (level : Nat) : List Json → String
  | [] => ""
  | element :: rest =>
    "," ++ newLine level ++ element.render level ++ renderElements level rest
termination_by structural elements => elements

end

def ofString (text : String) : Json := atom (Text.jsonString text)

end Json

namespace Token

def kindJson (token : Token) : Json :=
  match token.kind with
  | .string => .object [(token.kind.name, .ofString token.content)]
  | .number =>
    .object [(token.kind.name, .atom (Number.jsonText (Number.ofLexeme token.lexeme.toList)))]
  | kind => .ofString kind.name

def toJson (token : Token) : Json :=
  .object [("token_type", token.kindJson), ("lexeme", .ofString token.lexeme),
    ("line", .atom (toString token.line))]

def listJson (tokens : List Token) : String := (Json.array (tokens.map toJson)).render 0

end Token

end Lox
