import Lox.Text.GraphemeExtend
import Lox.Text.Printable

/-!
# Quoted texts

Two ways to write a text between double quotes: for a file name in a message,
and for a string in JSON.  Both escape the quote and the backslash.  A file name
also shows by its number each character that a reader could not tell from the
text around it; JSON escapes control characters only.
-/

namespace Lox.Text

def hexadecimal (width n : Nat) : List Char :=
  let digits := Nat.toDigits 16 n
  List.replicate (width - digits.length) '0' ++ digits

/-- Whether a reader sees a character as one of its own. -/
def standsAlone (c : Char) : Bool := isPrintable c && !extendsGrapheme c

/-- A character of a quoted file name; one that does not stand alone is written by its number. -/
def nameChar (c : Char) : List Char :=
  match c with
  | '"' => ['\\', '"']
  | '\\' => ['\\', '\\']
  | '\n' => ['\\', 'n']
  | '\r' => ['\\', 'r']
  | '\t' => ['\\', 't']
  | '\x00' => ['\\', '0']
  | c =>
    if standsAlone c then [c]
    else '\\' :: 'u' :: '\x7b' :: hexadecimal 1 c.toNat ++ ['\x7d']

def quotedName (name : String) : String :=
  String.ofList ('"' :: name.toList.flatMap nameChar ++ ['"'])

example : quotedName "it's.lox" = "\"it's.lox\"" := by decide +kernel

example : quotedName "x\u00ad\u0301" = "\"x\\u\x7bad\x7d\\u\x7b301\x7d\"" := by decide +kernel

/-- A character of a string in JSON; only control characters below the blank are escaped. -/
def jsonChar (c : Char) : List Char :=
  match c with
  | '"' => ['\\', '"']
  | '\\' => ['\\', '\\']
  | '\n' => ['\\', 'n']
  | '\r' => ['\\', 'r']
  | '\t' => ['\\', 't']
  | '\x08' => ['\\', 'b']
  | '\x0c' => ['\\', 'f']
  | c => if c.toNat < 0x20 then '\\' :: 'u' :: hexadecimal 4 c.toNat else [c]

def jsonString (text : String) : String :=
  String.ofList ('"' :: text.toList.flatMap jsonChar ++ ['"'])

end Lox.Text
