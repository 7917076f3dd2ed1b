import LazyCalc.Binary64.Decimal
import LazyCalc.Binary64.Nearest
namespace LazyCalc

structure Complex where
  re : Float
  im : Float

namespace Complex

def ofReal (x : Float) : Complex := ⟨x, 0⟩

def add (z w : Complex) : Complex := ⟨z.re + w.re, z.im + w.im⟩

def sub (z w : Complex) : Complex := ⟨z.re - w.re, z.im - w.im⟩

def neg (z : Complex) : Complex := ⟨-z.re, -z.im⟩

def mul (z w : Complex) : Complex :=
  ⟨z.re * w.re - z.im * w.im, z.re * w.im + z.im * w.re⟩

def div (z w : Complex) : Complex :=
  let norm := w.re * w.re + w.im * w.im
  ⟨(z.re * w.re + z.im * w.im) / norm, (z.im * w.re - z.re * w.im) / norm⟩

/-- Equal in both parts, so a NaN in either makes a number unequal to itself. -/
def same (z w : Complex) : Bool := z.re == w.re && z.im == w.im

def isZero (z : Complex) : Bool := z.re == 0 && z.im == 0

def norm (z : Complex) : Float := Binary64.hypotenuse z.re z.im

def log (z : Complex) : Complex := ⟨z.norm.log, Float.atan2 z.im z.re⟩

/-- `exp (a + bi)`. An infinite or NaN real part settles the answer before an angle is needed. -/
def exp (z : Complex) : Complex :=
  if z.re.isInf && z.re < 0 && !z.im.isFinite then ⟨0, 0⟩
  else if z.re.isInf && z.re > 0 && (z.im == 0 || !z.im.isFinite) then
    ⟨z.re, if z.im.isInf then Binary64.nan else z.im⟩
  else if z.re.isNaN && z.im == 0 then z
  else ⟨z.re.exp * z.im.cos, z.re.exp * z.im.sin⟩

def pow (z w : Complex) : Complex :=
  if w.isZero then ⟨1, 0⟩ else (w.mul z.log).exp

/-- The imaginary part brings its own sign unless it is at least zero, `-0` included. -/
def text (z : Complex) : String :=
  if z.im ≥ 0 then Binary64.text z.re ++ "+" ++ Binary64.text z.im ++ "i"
  else Binary64.text z.re ++ Binary64.text z.im ++ "i"

end Complex

end LazyCalc
