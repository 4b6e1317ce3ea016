import Confinement.Decimal.Shortest
import Confinement.Text.Quoted

/-!
# Reading JSON with places

A reader goes through a text byte by byte and knows the line it is in and the
number of bytes it has passed in that line.  A fault carries a reason and,
once it is known, a place.  A fault found at a byte that was only looked at is
placed behind that byte; one found in what was already passed is placed where
the reader stands.

A fault about a value as a whole has no place of its own.  It gets the place
where the reader stands when the enclosing value gives up (`placed`).  For a
list or an object that is after its closing bracket was looked for, so the
reader keeps its position when a fault is raised.
-/

namespace Confinement.Json

/-- A place in a text: the line, from 1, and the bytes passed in it. -/
structure Place where
  line : Nat
  column : Nat
  deriving DecidableEq, Repr

/-- The place behind one more byte. -/
def Place.after (p : Place) (b : UInt8) : Place :=
  if b = 0x0A then ⟨p.line + 1, 0⟩ else ⟨p.line, p.column + 1⟩

/-- A reader's position: its place and what lies ahead. -/
structure Cursor where
  place : Place
  rest : Bytes

/-- The start of a text. -/
def Cursor.start (text : Bytes) : Cursor := ⟨⟨1, 0⟩, text⟩

/-- The position behind `n` more bytes, or at the end. -/
def Cursor.advance (c : Cursor) (n : Nat) : Cursor :=
  ⟨(c.rest.take n).foldl Place.after c.place, c.rest.drop n⟩

/-- What was found where something else was wanted. -/
inductive Shape where
  | null
  | bool (b : Bool)
  | integer (n : Int)
  | floating (x : Float)
  | text (s : String)
  | sequence
  | map

/-- A shape as messages show it. -/
def Shape.describe : Shape → String
  | .null => "null"
  | .bool b => "boolean \x60" ++ toString b ++ "\x60"
  | .integer n => "integer \x60" ++ toString n ++ "\x60"
  | .floating x => "floating point \x60" ++ Decimal.render x ++ "\x60"
  | .text s => "string " ++ Text.quote s
  | .sequence => "sequence"
  | .map => "map"

/-- Why a text is refused. -/
inductive Reason where
  | endInList
  | endInObject
  | endInString
  | endInValue
  | wantsColon
  | wantsListCommaOrEnd
  | wantsObjectCommaOrEnd
  | wantsWord
  | wantsValue
  | invalidEscape
  | invalidNumber
  | numberOutOfRange
  | controlCharacter
  | keyNotString
  | loneSurrogate
  | trailingComma
  | trailingCharacters
  | brokenSurrogatePair
  | wrongShape (found : Shape) (wanted : String)
  | unknownVariant (name : String) (known : List String)
  | repeatedField (name : String)

/-- Names between backquotes, as a choice. -/
private def choice (names : List String) : String :=
  String.intercalate " or " (names.map fun n => "\x60" ++ n ++ "\x60")

/-- A reason in words. -/
def Reason.message : Reason → String
  | .endInList => "EOF while parsing a list"
  | .endInObject => "EOF while parsing an object"
  | .endInString => "EOF while parsing a string"
  | .endInValue => "EOF while parsing a value"
  | .wantsColon => "expected \x60:\x60"
  | .wantsListCommaOrEnd => "expected \x60,\x60 or \x60]\x60"
  | .wantsObjectCommaOrEnd => "expected \x60,\x60 or \x60\x7d\x60"
  | .wantsWord => "expected ident"
  | .wantsValue => "expected value"
  | .invalidEscape => "invalid escape"
  | .invalidNumber => "invalid number"
  | .numberOutOfRange => "number out of range"
  | .controlCharacter => "control character (\\u0000-\\u001F) found while parsing a string"
  | .keyNotString => "key must be a string"
  | .loneSurrogate => "lone leading surrogate in hex escape"
  | .trailingComma => "trailing comma"
  | .trailingCharacters => "trailing characters"
  | .brokenSurrogatePair => "unexpected end of hex escape"
  | .wrongShape found wanted => "invalid type: " ++ found.describe ++ ", expected " ++ wanted
  | .unknownVariant name known =>
    "unknown variant \x60" ++ name ++ "\x60, expected " ++ choice known
  | .repeatedField name => "duplicate field \x60" ++ name ++ "\x60"

/-- A refusal, placed or not. -/
structure Fault where
  reason : Reason
  place : Option Place

/-- A refusal in words. -/
def Fault.message (f : Fault) : String :=
  match f.place with
  | some p => f.reason.message ++ " at line " ++ toString p.line ++ " column " ++ toString p.column
  | none => f.reason.message

/-- A reader of a value: it moves the position also when it fails. -/
abbrev Reader := ExceptT Fault (StateM Cursor)

/-- The result of a reader and the position it stops at. -/
def Reader.at (r : Reader α) (c : Cursor) : Except Fault α × Cursor := r.run c

/-- The byte ahead. -/
def peek? : Reader (Option UInt8) := do return (← get).rest.head?

/-- The byte ahead, NUL at the end. -/
def peek : Reader UInt8 := do return ((← peek?).getD 0)

/-- The reader passes `n` bytes. -/
def pass (n : Nat) : Reader Unit := modify (·.advance n)

/-- The next byte, passed. -/
def next? : Reader (Option UInt8) := do
  let b ← peek?
  pass 1
  return b

/-- A fault where the reader stands. -/
def fail (reason : Reason) : Reader α := do throw ⟨reason, some (← get).place⟩

/-- A fault behind the byte ahead. -/
def failAhead (reason : Reason) : Reader α := do
  throw ⟨reason, some ((← get).advance 1).place⟩

/-- A fault whose place is left to the enclosing value. -/
def failUnplaced (reason : Reason) : Reader α := throw ⟨reason, none⟩

/-- The reader, its unplaced faults placed where it stops. -/
def placed (r : Reader α) : Reader α := fun c =>
  match r.run c with
  | (.error ⟨reason, none⟩, after) => (.error ⟨reason, some after.place⟩, after)
  | result => result

/-- The first reader, then the second in any case; the first fault counts. -/
def followedBy (r : Reader α) (closing : Reader Unit) : Reader α := fun c =>
  let (result, middle) := r.run c
  -- The closing runs after a fault too, since it moves the place the fault gets.
  let (closed, after) := closing.run middle
  match result, closed with
  | .error f, _ => (.error f, after)
  | .ok _, .error f => (.error f, after)
  | .ok a, .ok () => (.ok a, after)

/-- The bytes ahead that satisfy a test, passed. -/
def passWhile (test : UInt8 → Bool) : Reader Bytes := do
  let taken := (← get).rest.takeWhile test
  pass taken.length
  return taken

/-- A blank between tokens. -/
def isBlankByte (b : UInt8) : Bool := b = 0x20 || b = 0x0A || b = 0x09 || b = 0x0D

def isDigit (b : UInt8) : Bool := 0x30 ≤ b && b ≤ 0x39

/-- The byte ahead after blanks were passed. -/
def peekToken? : Reader (Option UInt8) := do
  let _ ← passWhile isBlankByte
  peek?

/-- The byte ahead after blanks were passed, a fault at the end. -/
def peekToken (atEnd : Reason) : Reader UInt8 := do
  match ← peekToken? with
  | some b => return b
  | none => failAhead atEnd

/-- The rest of a word such as `null`. -/
def word : List Char → Reader Unit
  | [] => return ()
  | c :: cs => do
    match ← next? with
    | none => fail .endInValue
    | some b => if b.toNat = c.toNat then word cs else fail .wantsWord

/-- The colon between a key and its value. -/
def colon : Reader Unit := do
  if (← peekToken .endInObject) = 0x3A then pass 1 else failAhead .wantsColon

/-- The end of a list whose elements were read. -/
def endList : Reader Unit := do
  let b ← peekToken .endInList
  if b = 0x5D then pass 1
  else if b = 0x2C then
    pass 1
    if (← peekToken?) = some 0x5D then failAhead .trailingComma else failAhead .trailingCharacters
  else failAhead .trailingCharacters

/-- The end of an object whose members were read. -/
def endObject : Reader Unit := do
  let b ← peekToken .endInObject
  if b = 0x7D then pass 1
  else if b = 0x2C then failAhead .trailingComma
  else failAhead .wantsObjectCommaOrEnd

/-- Nothing but blanks is left. -/
def endOfText : Reader Unit := do
  if (← peekToken?).isSome then failAhead .trailingCharacters

end Confinement.Json
