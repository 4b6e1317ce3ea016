import Confinement.Json.Number
import Confinement.Json.Text

/-!
# JSON values

Typed readers for the values a configuration holds (strings, booleans, lists,
objects with known fields), each naming what it wants when it meets something
else, and `skipValue` for the values of unknown fields.
-/

namespace Confinement.Json

/-- The shape of the value ahead, read as far as its kind shows, or the fault
met on the way. -/
def shapeAhead : Reader Shape := do
  match ← peek? with
  | some 0x6E => pass 1; word ['u', 'l', 'l']; return .null
  | some 0x74 => pass 1; word ['r', 'u', 'e']; return .bool true
  | some 0x66 => pass 1; word ['a', 'l', 's', 'e']; return .bool false
  | some 0x22 => pass 1; return .text (← text)
  | some 0x5B => return .sequence
  | some 0x7B => return .map
  | some 0x2D => pass 1; number true
  | some b => if isDigit b then number false else failAhead .wantsValue
  | none => failAhead .wantsValue

/-- The fault of a value that is not what was wanted. -/
def refuse (wanted : String) : Reader α :=
  placed do failUnplaced (.wrongShape (← shapeAhead) wanted)

/-- A string. -/
def string (wanted : String) : Reader String := placed do
  if (← peekToken .endInValue) = 0x22 then
    pass 1
    text
  else refuse wanted

/-- A boolean. -/
def boolean : Reader Bool := placed do
  match ← peekToken .endInValue with
  | 0x74 => pass 1; word ['r', 'u', 'e']; return true
  | 0x66 => pass 1; word ['a', 'l', 's', 'e']; return false
  | _ => refuse "a boolean"

/-- The value `null`. -/
def unit : Reader Unit := placed do
  if (← peekToken .endInValue) = 0x6E then
    pass 1
    word ['u', 'l', 'l']
  else refuse "unit"

/-- `null`, or a value. -/
def nullOr (value : Reader α) : Reader (Option α) := do
  if (← peekToken?) = some 0x6E then
    pass 1
    word ['u', 'l', 'l']
    return none
  else return some (← value)

/-- Whether a list goes on.  Between two elements a comma is passed. -/
def moreElements (first : Bool) : Reader Bool := do
  let b ← peekToken .endInList
  if b = 0x5D then return false
  else if first then return true
  else if b = 0x2C then
    pass 1
    if (← peekToken .endInValue) = 0x5D then failAhead .trailingComma else return true
  else failAhead .wantsListCommaOrEnd

/-- The elements of a list up to its closing bracket.  Every element takes at
least one byte, which bounds their number. -/
def elementsWithin (element : Reader α) : (bound : Nat) → (first : Bool) → Reader (List α)
  | 0, _ => return []
  | bound + 1, first => do
    if ← moreElements first then
      let a ← element
      return a :: (← elementsWithin element bound false)
    else return []

/-- A list. -/
def list (element : Reader α) : Reader (List α) := placed do
  if (← peekToken .endInValue) = 0x5B then
    pass 1
    followedBy (do elementsWithin element ((← get).rest.length + 1) true) endList
  else refuse "a sequence"

/-- Whether an object goes on.  Between two members a comma is passed; what
goes on must begin with the quote of a key. -/
def moreMembers (first : Bool) : Reader Bool := do
  let b ← peekToken .endInObject
  if b = 0x7D then return false
  else if first then if b = 0x22 then return true else failAhead .keyNotString
  else if b = 0x2C then
    pass 1
    match ← peekToken .endInValue with
    | 0x22 => return true
    | 0x7D => failAhead .trailingComma
    | _ => failAhead .keyNotString
  else failAhead .wantsObjectCommaOrEnd

/-! ## Skipping -/

/-- A bracket that is still open. -/
inductive Bracket where
  | list
  | object
  deriving DecidableEq

/-- A value without parts passed, or the opening bracket of one with parts. -/
private def skipHead : Reader (Option Bracket) := do
  match ← peekToken .endInValue with
  | 0x6E => pass 1; word ['u', 'l', 'l']; return none
  | 0x74 => pass 1; word ['r', 'u', 'e']; return none
  | 0x66 => pass 1; word ['a', 'l', 's', 'e']; return none
  | 0x2D => pass 1; skipNumber; return none
  | 0x22 => pass 1; skipText; return none
  | 0x5B => pass 1; return some .list
  | 0x7B => pass 1; return some .object
  | b => if isDigit b then skipNumber; return none else failAhead .wantsValue

/-- Closing brackets passed, up to a place where a further part begins.  The
result is the brackets then open. -/
private def closeBrackets : (afterValue : Bool) → List Bracket → Reader (List Bracket)
  | _, [] => return []
  | afterValue, bracket :: outer => do
    let b ← peekToken (match bracket with | .list => .endInList | .object => .endInObject)
    if b = 0x2C && afterValue then
      pass 1
      return bracket :: outer
    else if (b = 0x5D && bracket = .list) || (b = 0x7D && bracket = .object) then
      pass 1
      closeBrackets true outer
    else if afterValue then
      match bracket with
      | .list => failAhead .wantsListCommaOrEnd
      | .object => failAhead .wantsObjectCommaOrEnd
    else return bracket :: outer

/-- A key and its colon passed, where the innermost open bracket is an
object's. -/
private def skipKey : List Bracket → Reader Unit
  | .object :: _ => do
    if (← peekToken .endInObject) = 0x22 then
      pass 1
      skipText
      colon
    else failAhead .keyNotString
  | _ => return ()

/-- Values passed until no bracket is open. -/
private def skipWithin : (bound : Nat) → List Bracket → Reader Unit
  | 0, _ => return ()
  | bound + 1, brackets => do
    let opened ← skipHead
    let brackets ← closeBrackets opened.isNone (opened.toList ++ brackets)
    if brackets.isEmpty then return ()
    else
      skipKey brackets
      skipWithin bound brackets

/-- A value passed, whatever it is. -/
def skipValue : Reader Unit := do skipWithin ((← get).rest.length + 1) []

end Confinement.Json
