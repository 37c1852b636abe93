import ValueMachine.Text.Shortest

/-! Flex values as text.

There are two layouts. The plain one writes every number with all its places and
never an exponent. The exact one shows that the number is not an integer type:
there is always a digit after the point, and very large and very small numbers
have an exponent. -/
namespace ValueMachine

namespace Decimal

def digitText (d : Decimal) : String := toString d.digits

/-- The place of the point, counted from the first digit. -/
def point (d : Decimal) : Int := d.exponent + d.digitText.length

def zeros (n : Nat) : String := String.ofList (List.replicate n '0')

/-- All places written out, with at least so many digits after the point. -/
def positional (d : Decimal) (places : Nat) : String :=
  let digits := d.digitText
  let whole :=
    if d.point ≤ 0 then "0"
    else String.ofList (digits.toList.take d.point.toNat) ++ zeros d.exponent.toNat
  let fraction :=
    zeros (-d.point).toNat ++ String.ofList (digits.toList.drop d.point.toNat)
  let fraction := fraction ++ zeros (places - fraction.length)
  if fraction.isEmpty then whole else whole ++ "." ++ fraction

/-- One digit before the point, and an exponent. -/
def scientific (d : Decimal) : String :=
  let digits := d.digitText.toList
  let fraction := if digits.length ≤ 1 then "" else "." ++ String.ofList (digits.drop 1)
  String.ofList (digits.take 1) ++ fraction ++ "e" ++ toString (d.point - 1)

end Decimal

namespace Flex

/-- The text of a number, given the layout of a magnitude. -/
def renderWith (layout : Decimal → String) (x : Flex) : String :=
  if x.isNaN then "NaN"
  else
    let magnitude :=
      if !x.isFinite then "inf"
      else layout (if x.isZero then ⟨0, 0⟩ else x.shortest)
    if x.isNegative then "-" ++ magnitude else magnitude

/-- All places written out; integers have no point. -/
def render (x : Flex) : String := x.renderWith (·.positional 0)

/-- An exponent below `1e-4` and from `1e16` on, a fraction otherwise. -/
def renderExact (x : Flex) : String :=
  x.renderWith fun d =>
    if d.digits = 0 ∨ -3 ≤ d.point ∧ d.point ≤ 16 then d.positional 1 else d.scientific

end Flex

end ValueMachine
