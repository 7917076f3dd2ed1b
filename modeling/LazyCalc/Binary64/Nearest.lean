/-!
Exact numbers and binary64: the double nearest to a rational, ties to even, the exact value of a
double, and the length of a vector as the double nearest to the exact root.
-/

namespace LazyCalc.Binary64

open Float.Model (UnpackedFloat Format)
open Float.Model.UnpackedFloat (Sign)

def ofUnpacked (x : UnpackedFloat) : Float :=
  Float.ofBits (Float.Model.pack x).toBits

/-- The double nearest to `r`, ties to even; beyond the largest double, an infinity. -/
def nearest (r : Rat) : Float :=
  let sign := if r.num < 0 then Sign.negative else Sign.positive
  let (mantissa, exponent, accuracy) :=
    UnpackedFloat.divCore Format.binary64 r.num.natAbs 0 r.den 0
  ofUnpacked (UnpackedFloat.roundWithAccuracy Format.binary64 sign mantissa exponent accuracy)

def infinity : Float := Float.ofBits 0x7ff0000000000000

def nan : Float := Float.ofBits 0x7ff8000000000000

def ceiling? (x : Float) : Option Int :=
  match x.toModel.unpack with
  | .finite sign mantissa exponent _ =>
    let signed : Int := match sign with
      | .negative => -mantissa
      | .positive => mantissa
    some (if 0 ≤ exponent then signed <<< exponent.toNat
      else -((-signed) >>> (-exponent).toNat))
  | .zero _ => some 0
  | .infinity _ => none
  | .notANumber => none

/-- The double nearest to the square root of the sum of two squares. An infinite side gives an
infinite length, whatever the other side is. -/
def hypotenuse (x y : Float) : Float :=
  match x.toModel.unpack, y.toModel.unpack with
  | .infinity _, _ => infinity
  | _, .infinity _ => infinity
  | .notANumber, _ => nan
  | _, .notANumber => nan
  | .zero _, _ => y.abs
  | _, .zero _ => x.abs
  | .finite _ m₁ e₁ _, .finite _ m₂ e₂ _ =>
    let e := min e₁ e₂
    let a := m₁ <<< (e₁ - e).toNat
    let b := m₂ <<< (e₂ - e).toNat
    let (root, exponent, accuracy) :=
      UnpackedFloat.sqrtCore Format.binary64 (a * a + b * b) (2 * e)
    ofUnpacked (UnpackedFloat.roundWithAccuracy Format.binary64 .positive root exponent accuracy)

end LazyCalc.Binary64
