import LazyCalc.Scalar.Basic
import LazyCalc.Text.Printable
namespace LazyCalc

def hexDigits (n : Nat) : String := String.ofList (Nat.toDigits 16 n)

def escapedChar (c : Char) : String :=
  match c with
  | '\t' => "\\t"
  | '\r' => "\\r"
  | '\n' => "\\n"
  | '"' => "\\\""
  | '\\' => "\\\\"
  | c =>
    if c.toNat = 0 then "\\0"
    else if isPrintable c then c.toString
    else "\\u\x7b" ++ hexDigits c.toNat ++ "\x7d"

def quotedText (s : String) : String :=
  "\"" ++ String.join (s.toList.map escapedChar) ++ "\""

namespace Scalar

def debugText : Scalar → String
  | .integer i => "Integer(" ++ toString i ++ ")"
  | .rational r =>
    "Rational(Ratio \x7b numer: " ++ toString r.num ++ ", denom: " ++ toString r.den ++ " \x7d)"
  | .number x => "Number(" ++ Binary64.detailedText x ++ ")"
  | .complex z =>
    "Complex(Complex \x7b re: " ++ Binary64.detailedText z.re ++ ", im: " ++
      Binary64.detailedText z.im ++ " \x7d)"
  | .date d => "Date(" ++ d.text ++ ")"
  | .string s => "String(" ++ quotedText s ++ ")"
  | .boolean b => "Boolean(" ++ (if b then "true" else "false") ++ ")"

end Scalar

end LazyCalc
