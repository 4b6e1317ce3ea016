/-!
# The shortest decimal of a float

A finite float is `m · 2^q`, and all reals in an interval around it round back
to it.  `shortest` looks for the fewest digits that name a point of that
interval: on the grid of one digit, then two, up to seventeen, it tests the
two grid points next to the value, and takes the nearer of those inside.

`render` is the layout: positional while the decimal point stands at most
sixteen digits to the right of the first digit and at most four zeros to its
left, always with at least one digit after the point, else with an exponent
that carries its sign.
-/

namespace Confinement.Decimal

/-- A positive float taken apart: `mantissa · 2^exponent`. -/
structure Binary where
  mantissa : Nat
  exponent : Int
  deriving Repr

/-- The magnitude of a finite float. -/
def Binary.ofFloat (x : Float) : Binary :=
  let bits := x.toBits.toNat
  let fraction : Nat := bits % 1 <<< 52
  let biased : Nat := bits / 1 <<< 52 % 1 <<< 11
  if biased = 0 then ⟨fraction, -1074⟩ else ⟨fraction + 1 <<< 52, (biased : Int) - 1075⟩

/-- Digits and the power of ten of the last one. -/
structure Digits where
  value : Nat
  exponent : Int
  deriving Repr

/-- A fraction of naturals. -/
private structure Ratio where
  num : Nat
  den : Nat

private def Ratio.scale (r : Ratio) (base : Nat) (e : Int) : Ratio :=
  if 0 ≤ e then ⟨r.num * base.pow e.toNat, r.den⟩ else ⟨r.num, r.den * base.pow (-e).toNat⟩

private def Ratio.le (r s : Ratio) : Bool := r.num * s.den ≤ s.num * r.den

private def Ratio.lt (r s : Ratio) : Bool := r.num * s.den < s.num * r.den

/-- The distance of two fractions. -/
private def Ratio.distance (r s : Ratio) : Ratio :=
  let a := r.num * s.den
  let b := s.num * r.den
  ⟨(a - b) + (b - a), r.den * s.den⟩

/-- The points of the grid `10^e` that round back to `x`, the nearest first.
The ends of the interval belong to it when the mantissa is even. -/
private def onGrid (x : Binary) (e : Int) : List Nat :=
  let q := x.exponent - 2
  let value := (Ratio.mk (4 * x.mantissa) 1).scale 2 q
  -- Below a power of two the next float is only half as far away.
  let narrow := x.mantissa = 1 <<< 52 ∧ -1074 < x.exponent
  let low := (Ratio.mk (4 * x.mantissa - if narrow then 1 else 2) 1).scale 2 q
  let high := (Ratio.mk (4 * x.mantissa + 2) 1).scale 2 q
  let inside (r : Ratio) : Bool :=
    if x.mantissa % 2 = 0 then low.le r && r.le high else low.lt r && r.lt high
  let units := value.scale 10 (-e)
  let floor := units.num / units.den
  let point (n : Nat) : Ratio := (Ratio.mk n 1).scale 10 e
  let hits := [floor, floor + 1].filter fun n => inside (point n)
  match hits with
  | [a, b] =>
    let da := value.distance (point a)
    let db := value.distance (point b)
    if da.lt db || (!db.lt da && a % 2 = 0) then [a, b] else [b, a]
  | hits => hits

/-- The power of ten of the first digit. -/
private def leading (x : Binary) : Int :=
  let value := (Ratio.mk x.mantissa 1).scale 2 x.exponent
  let guess : Int := ((x.mantissa.log2 : Int) + x.exponent) * 30103 / 100000
  if (Ratio.mk 1 1).scale 10 (guess + 1) |>.le value then guess + 1
  else if (Ratio.mk 1 1).scale 10 guess |>.le value then guess
  else guess - 1

/-- The digits on the first grid that has a hit, from `count` digits on. -/
private def search (x : Binary) (top : Int) : (grids : Nat) → (count : Int) → Digits
  | 0, _ => ⟨0, 0⟩
  | grids + 1, count =>
    match onGrid x (top - count + 1) with
    | n :: _ => ⟨n, top - count + 1⟩
    | [] => search x top grids (count + 1)

/-- Digits without zeros at the end. -/
private def trimZeros : (fuel : Nat) → Digits → Digits
  | 0, d => d
  | fuel + 1, d =>
    if d.value ≠ 0 ∧ d.value % 10 = 0 then trimZeros fuel ⟨d.value / 10, d.exponent + 1⟩ else d

/-- The fewest digits that read back as a positive float. -/
def shortest (x : Binary) : Digits := trimZeros 20 (search x (leading x) 17 1)

/-- The layout of a decimal. -/
private def layout (d : Digits) : String :=
  let digits := Nat.repr d.value
  let count : Int := digits.length
  let point := count + d.exponent
  let zeros (n : Int) : String := String.ofList (List.replicate n.toNat '0')
  let split (n : Nat) : String × String :=
    (String.ofList (digits.toList.take n), String.ofList (digits.toList.drop n))
  if 0 ≤ d.exponent ∧ point ≤ 16 then digits ++ zeros d.exponent ++ ".0"
  else if 0 < point ∧ point ≤ 16 then
    let (whole, part) := split point.toNat
    whole ++ "." ++ part
  else if -5 < point ∧ point ≤ 0 then "0." ++ zeros (-point) ++ digits
  else
    let (first, part) := split 1
    let e := point - 1
    first ++ (if part.isEmpty then "" else "." ++ part) ++ "e" ++
      (if 0 ≤ e then "+" else "-") ++ Nat.repr e.natAbs

/-- A finite float in the fewest digits that read back. -/
def render (x : Float) : String :=
  let sign := if x.toBits.toNat / 1 <<< 63 = 1 then "-" else ""
  let b := Binary.ofFloat x
  sign ++ if b.mantissa = 0 then "0.0" else layout (shortest b)

end Confinement.Decimal
