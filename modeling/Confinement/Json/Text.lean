import Confinement.Json.Reader

/-!
# JSON strings

`text` reads a string after its opening quote and gives its bytes, escapes
resolved; `skipText` passes one without looking at the code points that its
escapes name.  The two place a control character differently: the first has
passed it, the second stands before it.

A string ends with the text, so both recurse on a bound for the bytes ahead.
-/

namespace Confinement.Json

/-- The value of a hexadecimal digit. -/
def hexDigit? (b : UInt8) : Option Nat :=
  if 0x30 ≤ b ∧ b ≤ 0x39 then some (b.toNat - 0x30)
  else if 0x41 ≤ b ∧ b ≤ 0x46 then some (b.toNat - 0x37)
  else if 0x61 ≤ b ∧ b ≤ 0x66 then some (b.toNat - 0x57)
  else none

/-- The number that four hexadecimal digits spell. -/
def fourDigits : Reader Nat := do
  let digits := (← get).rest.take 4
  pass digits.length
  if digits.length < 4 then fail .endInString
  else
    match digits.mapM hexDigit? with
    | some ds => return ds.foldl (fun n d => n * 16 + d) 0
    | none => fail .invalidEscape

/-- A byte that must not be missing from a string. -/
private def nextInText : Reader UInt8 := do
  match ← next? with
  | some b => return b
  | none => fail .endInString

/-- One byte of the pair of escapes that spells a character beyond U+FFFF. -/
private def pairByte (wanted : UInt8) : Reader Unit := do
  if (← nextInText) ≠ wanted then fail .brokenSurrogatePair

/-- The character of an escape by number. -/
def numberedEscape : Reader Char := do
  let n ← fourDigits
  if 0xDC00 ≤ n ∧ n ≤ 0xDFFF then fail .loneSurrogate
  else if n < 0xD800 ∨ 0xDBFF < n then return Char.ofNat n
  else
    pairByte 0x5C
    pairByte 0x75
    let m ← fourDigits
    if m < 0xDC00 ∨ 0xDFFF < m then fail .loneSurrogate
    else return Char.ofNat ((n - 0xD800) * 0x400 + (m - 0xDC00) + 0x10000)

/-- The character that a letter after a backslash spells. -/
def namedEscape? (b : UInt8) : Option Char :=
  [('"', '"'), ('\\', '\\'), ('/', '/'), ('b', '\x08'), ('f', '\x0c'), ('n', '\n'), ('r', '\r'),
    ('t', '\t')].lookup (Char.ofNat b.toNat)

/-- The bytes of an escape after its backslash. -/
def escape : Reader Bytes := do
  let b ← nextInText
  if b = 0x75 then return String.utf8EncodeChar (← numberedEscape)
  else
    match namedEscape? b with
    | some c => return String.utf8EncodeChar c
    | none => fail .invalidEscape

/-- A byte that stands for itself in a string. -/
def isPlain (b : UInt8) : Bool := b ≠ 0x22 && b ≠ 0x5C && 0x20 ≤ b

/-- The bytes of a string up to its closing quote. -/
def textWithin : (bound : Nat) → Reader Bytes
  | 0 => fail .endInString
  | bound + 1 => do
    let plain ← passWhile isPlain
    match ← peek? with
    | none => fail .endInString
    | some b =>
      pass 1
      if b = 0x22 then return plain
      else if b = 0x5C then
        let escaped ← escape
        return plain ++ escaped ++ (← textWithin bound)
      else fail .controlCharacter

/-- A string after its opening quote. -/
def text : Reader String := do
  return Utf8.lossy (← textWithin ((← get).rest.length + 1))

/-- An escape passed after its backslash. -/
def skipEscape : Reader Unit := do
  let b ← nextInText
  if b = 0x75 then let _ ← fourDigits
  else if (namedEscape? b).isNone then fail .invalidEscape

/-- A string passed up to its closing quote. -/
def skipTextWithin : (bound : Nat) → Reader Unit
  | 0 => fail .endInString
  | bound + 1 => do
    let _ ← passWhile isPlain
    match ← peek? with
    | none => fail .endInString
    | some b =>
      if b = 0x22 then pass 1
      else if b = 0x5C then
        pass 1
        skipEscape
        skipTextWithin bound
      else fail .controlCharacter

/-- A string passed after its opening quote. -/
def skipText : Reader Unit := do skipTextWithin ((← get).rest.length + 1)

end Confinement.Json
