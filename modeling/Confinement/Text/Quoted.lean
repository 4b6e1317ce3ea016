import Confinement.Path
import Confinement.Text.Printable

/-!
# Quoted text

Messages and log lines show a text or a path between double quotes.  A
backslash begins the spelling of a character that would end the quotes, break
the line or not be seen.  In a path the bytes that are no text are spelled one
by one, and a single quote is spelled like a double one.
-/

namespace Confinement.Text

/-- A number in lower-case hexadecimal digits. -/
def hexadecimal (n : Nat) : List Char := Nat.toDigits 16 n

/-- A byte as two upper-case hexadecimal digits. -/
private def byteDigits (b : UInt8) : List Char :=
  (Nat.toDigits 16 (b.toNat / 16) ++ Nat.toDigits 16 (b.toNat % 16)).map Char.toUpper

/-- The spelling of a character between double quotes. -/
def quotedChar (c : Char) : List Char :=
  if c = '\x00' then ['\\', '0']
  else if c = '\t' then ['\\', 't']
  else if c = '\r' then ['\\', 'r']
  else if c = '\n' then ['\\', 'n']
  else if c = '"' ∨ c = '\\' then ['\\', c]
  else if isPrintable c then [c]
  else ['\\', 'u', '\x7b'] ++ hexadecimal c.toNat ++ ['\x7d']

/-- A text between double quotes. -/
def quote (s : String) : String :=
  String.ofList (['"'] ++ s.toList.flatMap quotedChar ++ ['"'])

/-- The spelling of a piece of a path between double quotes. -/
private def quotedPiece : Utf8.Piece → List Char
  | .char c => if c = '\'' then ['\\', c] else quotedChar c
  | .broken bytes => bytes.flatMap fun b => ['\\', 'x'] ++ byteDigits b

/-- A path between double quotes. -/
def quotePath (p : Path) : String :=
  String.ofList (['"'] ++ (Utf8.pieces p.bytes).flatMap quotedPiece ++ ['"'])

end Confinement.Text
