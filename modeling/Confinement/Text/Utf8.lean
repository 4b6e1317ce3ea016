/-!
# Bytes and the text they spell

File names, file contents and environment values are byte strings; only some
of them are text.  `Utf8.pieces` reads a byte string from the left as a list of
pieces, each a character or a maximal stretch that no character can begin
with.  The two readings of a byte string are views of that list:

* `Utf8.decode?` is the text when every piece is a character;
* `Utf8.lossy` shows each broken stretch as one U+FFFD.

`Utf8.encode` writes text back as bytes.
-/

namespace Confinement

/-- A byte string: a path, the content of a file, the value of a variable. -/
abbrev Bytes := List UInt8

namespace Utf8

/-- A character under way: the bytes seen so far, the value they contribute,
the number of bytes still owed, and the range of the next one.  The range is
narrower than `80..BF` exactly after `E0`, `ED`, `F0` and `F4`. -/
structure Partial where
  seen : Bytes
  value : Nat
  owed : Nat
  low : UInt8
  high : UInt8

/-- What one byte opens where no character is under way. -/
inductive Opening where
  | whole (c : Char)
  | started (p : Partial)
  | broken

/-- The role of a byte at the start of a character. -/
def opening (b : UInt8) : Opening :=
  let started (owed : Nat) (value : UInt8) (low high : UInt8) : Opening :=
    .started ⟨[b], value.toNat, owed, low, high⟩
  if b < 0x80 then .whole (Char.ofNat b.toNat)
  else if b < 0xC2 then .broken
  else if b < 0xE0 then started 1 (b &&& 0x1F) 0x80 0xBF
  else if b = 0xE0 then started 2 0 0xA0 0xBF
  else if b = 0xED then started 2 0xD 0x80 0x9F
  else if b < 0xF0 then started 2 (b &&& 0xF) 0x80 0xBF
  else if b = 0xF0 then started 3 0 0x90 0xBF
  else if b < 0xF4 then started 3 (b &&& 0x7) 0x80 0xBF
  else if b = 0xF4 then started 3 4 0x80 0x8F
  else .broken

/-- The effect of one more byte on a character under way: the finished
character, the longer beginning, or nothing when the byte does not fit. -/
def Partial.take? (p : Partial) (b : UInt8) : Option (Char ⊕ Partial) :=
  if p.low ≤ b ∧ b ≤ p.high then
    let value := p.value * 64 + (b &&& 0x3F).toNat
    if p.owed ≤ 1 then some (.inl (Char.ofNat value))
    else some (.inr ⟨p.seen ++ [b], value, p.owed - 1, 0x80, 0xBF⟩)
  else none

/-- A maximal stretch of a byte string that reads as one unit. -/
inductive Piece where
  | char (c : Char)
  | broken (bytes : Bytes)
  deriving DecidableEq

/-- The pieces of a byte string, after the beginning of a character if one is
under way. -/
def piecesFrom : Option Partial → Bytes → List Piece
  | none, [] => []
  | some p, [] => [.broken p.seen]
  | none, b :: rest =>
    match opening b with
    | .whole c => .char c :: piecesFrom none rest
    | .started q => piecesFrom (some q) rest
    | .broken => .broken [b] :: piecesFrom none rest
  | some p, b :: rest =>
    match p.take? b with
    | some (.inl c) => .char c :: piecesFrom none rest
    | some (.inr q) => piecesFrom (some q) rest
    | none =>
      .broken p.seen ::
        match opening b with
        | .whole c => .char c :: piecesFrom none rest
        | .started q => piecesFrom (some q) rest
        | .broken => .broken [b] :: piecesFrom none rest

/-- A byte string, read from the left. -/
def pieces (bytes : Bytes) : List Piece := piecesFrom none bytes

/-- The character of a piece, if it is one. -/
def Piece.char? : Piece → Option Char
  | .char c => some c
  | .broken _ => none

/-- The character shown for a piece. -/
def Piece.shown : Piece → Char
  | .char c => c
  | .broken _ => '\uFFFD'

/-- The characters of a byte string that is text throughout. -/
def decodeChars? (bytes : Bytes) : Option (List Char) :=
  (pieces bytes).mapM Piece.char?

/-- The text a byte string spells, if it is text throughout. -/
def decode? (bytes : Bytes) : Option String :=
  (decodeChars? bytes).map String.ofList

/-- A byte string for display: what is no text appears as U+FFFD. -/
def lossy (bytes : Bytes) : String :=
  String.ofList ((pieces bytes).map Piece.shown)

/-- The bytes that spell a list of characters. -/
def encodeChars (cs : List Char) : Bytes := cs.flatMap String.utf8EncodeChar

/-- The bytes that spell a text. -/
def encode (s : String) : Bytes := encodeChars s.toList

end Utf8

end Confinement
