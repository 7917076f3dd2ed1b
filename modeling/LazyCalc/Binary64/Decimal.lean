/-!
The decimal text of a double: the fewest digits that read back to it, of those the nearest, an exact
tie going up, written without an exponent.
-/

namespace LazyCalc

/-- The number `0.d₁d₂… * 10 ^ point`. -/
structure Decimal where
  digits : List Nat
  point : Int
  deriving DecidableEq, Repr

namespace Decimal

def width (n : Nat) : Nat :=
  if n = 0 then 0 else (Nat.toDigits 10 n).length

/-- A double between its neighbours, in units of `1 / scale`: the numbers from `value - below` to
`value + above` read back as it, the ends too when `closed`. -/
structure Interval where
  value : Nat
  below : Nat
  above : Nat
  scale : Nat
  closed : Bool

namespace Interval

/-- The interval of `mantissa * 2 ^ exponent`. The gap below a power of two is half the gap
above. -/
def ofBinary (mantissa : Nat) (exponent : Int) : Interval :=
  let (value, below, above, exponent) :=
    if mantissa = 1 <<< 52 then (4 * mantissa, 1, 2, exponent - 2)
    else (2 * mantissa, 1, 1, exponent - 1)
  let up := exponent.toNat
  { value := value <<< up
    below := below <<< up
    above := above <<< up
    scale := 1 <<< (-exponent).toNat
    closed := mantissa % 2 == 0 }

def point (i : Interval) : Int :=
  let high := i.value + i.above
  if i.closed then
    if i.scale ≤ high then width (high / i.scale)
    else -((width ((i.scale - 1) / high) : Int) - 1)
  else
    if i.scale < high then width ((high - 1) / i.scale)
    else -((width (i.scale / high) : Int) - 1)

def scaleBy (i : Interval) (point : Int) : Interval :=
  let down := Nat.pow 10 (-point).toNat
  { i with
    value := i.value * down
    below := i.below * down
    above := i.above * down
    scale := i.scale * Nat.pow 10 point.toNat }

/-- Digits one at a time until the interval is reached, each with whether the last of them is to be
raised. Seventeen digits always suffice. -/
def digits : (fuel : Nat) → Interval → List Nat × Bool
  | 0, _ => ([], false)
  | fuel + 1, i =>
    let value := i.value * 10
    let below := i.below * 10
    let above := i.above * 10
    let digit := value / i.scale
    let rest := value % i.scale
    let down := if i.closed then rest ≤ below else rest < below
    let up := if i.closed then i.scale ≤ rest + above else i.scale < rest + above
    if down || up then ([digit], up && (!down || i.scale ≤ 2 * rest))
    else
      let (later, raise) := digits fuel { i with value := rest, below := below, above := above }
      (digit :: later, raise)

end Interval

def raise (d : Decimal) : Decimal :=
  match d.digits.reverse.span (· == 9) with
  | (nines, []) => ⟨1 :: nines.map fun _ => 0, d.point + 1⟩
  | (nines, digit :: earlier) =>
    ⟨(nines.map (fun _ => 0) ++ (digit + 1) :: earlier).reverse, d.point⟩

def shortest (mantissa : Nat) (exponent : Int) : Decimal :=
  let interval := Interval.ofBinary mantissa exponent
  let point := interval.point
  let (digits, up) := (interval.scaleBy point).digits 17
  if up then raise ⟨digits, point⟩ else ⟨digits, point⟩

def digitText (digits : List Nat) : String :=
  String.ofList (digits.map Nat.digitChar)

def positional (d : Decimal) : String :=
  if d.point ≤ 0 then "0." ++ "".pushn '0' (-d.point).toNat ++ digitText d.digits
  else
    let whole := d.point.toNat
    if d.digits.length ≤ whole then digitText d.digits ++ "".pushn '0' (whole - d.digits.length)
    else digitText (d.digits.take whole) ++ "." ++ digitText (d.digits.drop whole)

def scientific (d : Decimal) : String :=
  digitText (d.digits.take 1) ++
    (if d.digits.length ≤ 1 then "" else "." ++ digitText (d.digits.drop 1)) ++
    "e" ++ toString (d.point - 1)

end Decimal

namespace Binary64

def signText : Float.Model.UnpackedFloat.Sign → String
  | .negative => "-"
  | .positive => ""

def text (x : Float) : String :=
  match x.toModel.unpack with
  | .notANumber => "NaN"
  | .infinity sign => signText sign ++ "inf"
  | .zero sign => signText sign ++ "0"
  | .finite sign mantissa exponent _ =>
    signText sign ++ (Decimal.shortest mantissa exponent).positional

/-- The text that shows a double to be one: a whole number keeps a point, and the very large and
the very small have an exponent. -/
def detailedText (x : Float) : String :=
  match x.toModel.unpack with
  | .notANumber => "NaN"
  | .infinity sign => signText sign ++ "inf"
  | .zero sign => signText sign ++ "0.0"
  | .finite sign mantissa exponent _ =>
    let decimal := Decimal.shortest mantissa exponent
    signText sign ++
      (if decimal.point ≤ -4 ∨ 16 < decimal.point then decimal.scientific
      else if (decimal.digits.length : Int) ≤ decimal.point then decimal.positional ++ ".0"
      else decimal.positional)

end Binary64

end LazyCalc
