import Lox.Parser.Statement
import Lox.Resolution

/-!
# From source to program

A source goes through three stages, each of which can reject it.  For a program
that is to be run, tokens are parsed even if some characters formed no token, so
that the errors of both stages are shown together; names are resolved only if
there were none.
-/

namespace Lox

structure Program where
  statements : List Stmt
  distances : Distances

abbrev Compiled (α : Type) : Type := Except (List Diagnostic) α × NodeId

namespace Program

/-- The statements of a source; characters that form no token are reported alone. -/
def parse (source : String) (nextId : NodeId) : Compiled (List Stmt) :=
  let items := Item.scan source
  match Item.errors items with
  | [] =>
    let parsed := Parser.parse (Item.tokens items) nextId
    (parsed.1.mapError (·.map .grammar), parsed.2)
  | errors => (.error (errors.map .lexical), nextId)

def resolve (statements : List Stmt) : Except (List Diagnostic) Program :=
  match Resolution.run statements with
  | .ok distances => .ok ⟨statements, distances⟩
  | .error errors => .error (errors.map .scope)

/-- The program that a source stands for, or all that is wrong with it. -/
def compile (source : String) (nextId : NodeId) : Compiled Program :=
  let items := Item.scan source
  let lexical := (Item.errors items).map Diagnostic.lexical
  match Parser.parse (Item.tokens items) nextId with
  | (.error errors, nextId) => (.error (lexical ++ errors.map .grammar), nextId)
  | (.ok statements, nextId) =>
    if lexical.isEmpty then (resolve statements, nextId) else (.error lexical, nextId)

def distance? (program : Program) (place : Occurrence) : Option Nat :=
  program.distances[place.id]?

end Program

end Lox
