/-!
# Reading UTF-8

A character is a lead byte and as many further bytes as the lead calls for.  The
range of the second byte is narrower behind some leads, so that no character has
two encodings and none lies among the surrogates or beyond the last plane.  The
first fault is reported with its position and with the number of bytes that make
it up; input that ends within a character has no such number.
-/

namespace Lox.Text.Utf8

/-- Where bytes stop being UTF-8. -/
structure Fault where
  /-- The number of bytes before the faulty sequence. -/
  position : Nat
  /-- How many bytes the faulty sequence has, unless the input ends within it. -/
  length? : Option Nat
  deriving DecidableEq, Repr

namespace Fault

def message (fault : Fault) : String :=
  match fault.length? with
  | some length =>
    "invalid utf-8 sequence of " ++ toString length ++ " bytes from index "
      ++ toString fault.position
  | none => "incomplete utf-8 byte sequence from index " ++ toString fault.position

end Fault

/-- What a lead byte calls for. -/
structure Lead where
  /-- The part of the character that the lead carries. -/
  payload : Nat
  /-- The number of bytes behind it. -/
  more : Nat
  /-- The least and the greatest value of the second byte. -/
  least : Nat
  greatest : Nat

def lead? (byte : Nat) : Option Lead :=
  if byte < 0x80 then some ⟨byte, 0, 0x80, 0xBF⟩
  else if byte < 0xC2 then none
  else if byte < 0xE0 then some ⟨byte - 0xC0, 1, 0x80, 0xBF⟩
  else if byte = 0xE0 then some ⟨0, 2, 0xA0, 0xBF⟩
  else if byte = 0xED then some ⟨0xD, 2, 0x80, 0x9F⟩
  else if byte < 0xF0 then some ⟨byte - 0xE0, 2, 0x80, 0xBF⟩
  else if byte = 0xF0 then some ⟨0, 3, 0x90, 0xBF⟩
  else if byte < 0xF4 then some ⟨byte - 0xF0, 3, 0x80, 0xBF⟩
  else if byte = 0xF4 then some ⟨4, 3, 0x80, 0x8F⟩
  else none

/--
Reads the bytes behind a lead.  `good` counts the bytes of the character so far;
a fault is the number of them, or nothing at the end of input.
-/
def following (good : Nat) (value : Nat) (least greatest : Nat) :
    Nat → List UInt8 → Except (Option Nat) Nat
  | 0, _ => .ok value
  | _ + 1, [] => .error none
  | more + 1, byte :: rest =>
    if least ≤ byte.toNat ∧ byte.toNat ≤ greatest then
      following (good + 1) (value * 64 + (byte.toNat - 0x80)) 0x80 0xBF more rest
    else .error (some good)

/--
Reads all bytes behind the characters `before`, which are in reverse order.
`skip` of the bytes belong to the character read last, and `position` counts the
bytes that came before.
-/
def decodeFrom (position skip : Nat) (before : List Char) : List UInt8 → Except Fault (List Char)
  | [] => .ok before.reverse
  | byte :: rest =>
    match skip with
    | skip + 1 => decodeFrom (position + 1) skip before rest
    | 0 =>
      match lead? byte.toNat with
      | none => .error ⟨position, some 1⟩
      | some lead =>
        match following 1 lead.payload lead.least lead.greatest lead.more rest with
        | .error length? => .error ⟨position, length?⟩
        | .ok value => decodeFrom (position + 1) lead.more (Char.ofNat value :: before) rest

def decode (bytes : List UInt8) : Except Fault String :=
  (decodeFrom 0 0 [] bytes).map String.ofList

end Lox.Text.Utf8
