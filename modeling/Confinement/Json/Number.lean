import Confinement.Json.Reader

/-!
# JSON numbers

A whole number that fits 64 bits keeps its value; `-0` and every other number
is a float.  Digits are collected into a 64-bit significand; from the first
one that would overflow it, digits only count.  The float is that significand
scaled by a power of ten, and a number beyond the largest float is refused.

`skipNumber` passes a number of any size.
-/

namespace Confinement.Json

/-- A significand of 64 bits takes one more digit if it stays below 2⁶⁴. -/
private def wordLimit : Nat := 1 <<< 64

/-- Digits taken into a significand while it fits, and those left over. -/
def collect (significand : Nat) : List UInt8 → Nat × List UInt8
  | [] => (significand, [])
  | d :: ds =>
    let more := significand * 10 + (d.toNat - 0x30)
    if more < wordLimit then collect more ds else (significand, d :: ds)

/-- The power of ten with a natural exponent. -/
private def powerOfTen (n : Nat) : Float := Float.ofScientific 1 false n

/-- The float `f · 10^exponent`, nothing when it is too large.  Exponents
beyond the table of powers are reached by steps of 308. -/
private def scale : (steps : Nat) → Float → Int → Option Float
  | 0, f, _ => some f
  | steps + 1, f, exponent =>
    if exponent.natAbs ≤ 308 then
      if 0 ≤ exponent then
        let g := f * powerOfTen exponent.toNat
        if g.isInf then none else some g
      else some (f / powerOfTen exponent.natAbs)
    else if f == 0.0 then some f
    else if 0 ≤ exponent then none
    else scale steps (f / powerOfTen 308) (exponent + 308)

/-- The float a significand and an exponent spell. -/
def floatOf (negative : Bool) (significand : Nat) (exponent : Int) : Reader Shape := do
  match scale 5 (UInt64.ofNat significand).toFloat exponent with
  | some f => return .floating (if negative then -f else f)
  | none => fail .numberOutOfRange

/-- The number of digits up to the first that takes an exponent beyond 31
bits. -/
private def overlong (value : Nat) : List UInt8 → Option Nat
  | [] => none
  | d :: ds =>
    let more := value * 10 + (d.toNat - 0x30)
    if more < 1 <<< 31 then (overlong more ds).map (· + 1) else some 1

/-- A number from the letter of its exponent on. -/
def exponentPart (negative : Bool) (significand : Nat) (shift : Int) : Reader Shape := do
  pass 1
  let sign ← peek
  if sign = 0x2B || sign = 0x2D then pass 1
  let shrinks := sign = 0x2D
  match ← next? with
  | none => fail .endInValue
  | some first =>
    if !isDigit first then fail .invalidNumber
    else
      let start := first.toNat - 0x30
      let ahead := (← get).rest.takeWhile isDigit
      match overlong start ahead with
      | some n =>
        if significand ≠ 0 ∧ !shrinks then
          pass n
          fail .numberOutOfRange
        else
          -- Nothing is left of a number this small, and a zero stays one.
          pass ahead.length
          return .floating (if negative then -0.0 else 0.0)
      | none =>
        pass ahead.length
        let exponent : Int := ahead.foldl (fun n d => n * 10 + (d.toNat - 0x30)) start
        floatOf negative significand (if shrinks then shift - exponent else shift + exponent)

/-- What may follow the digits of a number: an exponent or nothing. -/
private def exponentOrEnd (negative : Bool) (significand : Nat) (shift : Int) : Reader Shape := do
  let b ← peek
  if b = 0x65 || b = 0x45 then exponentPart negative significand shift
  else floatOf negative significand shift

/-- A number from its decimal point on. -/
def decimalPart (negative : Bool) (significand : Nat) (shift : Int) : Reader Shape := do
  pass 1
  let digits ← passWhile isDigit
  if digits.isEmpty then
    match ← peek? with
    | some _ => failAhead .invalidNumber
    | none => failAhead .endInValue
  else
    let (significand, left) := collect significand digits
    exponentOrEnd negative significand (shift - (digits.length - left.length : Nat))

/-- A number after its sign. -/
def number (negative : Bool) : Reader Shape := do
  match ← next? with
  | none => fail .endInValue
  | some first =>
    if !isDigit first then fail .invalidNumber
    else if first = 0x30 && isDigit (← peek) then failAhead .invalidNumber
    else
      let digits ← if first = 0x30 then pure [] else passWhile isDigit
      let (significand, left) := collect (first.toNat - 0x30) digits
      let b ← peek
      if b = 0x2E then decimalPart negative significand left.length
      else if b = 0x65 || b = 0x45 then exponentPart negative significand left.length
      else if !left.isEmpty then floatOf negative significand left.length
      else if !negative then return .integer significand
      else if significand = 0 ∨ 1 <<< 63 < significand then
        return .floating (-(UInt64.ofNat significand).toFloat)
      else return .integer (-significand)

/-- An exponent passed from its letter on. -/
private def skipExponent : Reader Unit := do
  pass 1
  let sign ← peek
  if sign = 0x2B || sign = 0x2D then pass 1
  match ← next? with
  | some b => if isDigit b then let _ ← passWhile isDigit else fail .invalidNumber
  | none => fail .invalidNumber

/-- A number passed after its sign. -/
def skipNumber : Reader Unit := do
  match ← next? with
  | none => fail .invalidNumber
  | some first =>
    if !isDigit first then fail .invalidNumber
    else
      if first = 0x30 then
        if isDigit (← peek) then failAhead .invalidNumber
      else let _ ← passWhile isDigit
      let b ← peek
      if b = 0x2E then
        pass 1
        if (← passWhile isDigit).isEmpty then failAhead .invalidNumber
        let e ← peek
        if e = 0x65 || e = 0x45 then skipExponent
      else if b = 0x65 || b = 0x45 then skipExponent

end Confinement.Json
