import Varlet.Number.Decimal
import Varlet.Text.Classes

namespace Varlet.Number

open Text

def valueOfDigits (cs : List Char) : Nat :=
  cs.foldl (fun n c => 10 * n + (c.toNat - '0'.toNat)) 0

def splitSign : List Char → Bool × List Char
  | '-' :: cs => (true, cs)
  | '+' :: cs => (false, cs)
  | cs => (false, cs)

def readExponent? : List Char → Option Int
  | [] => some 0
  | c :: cs =>
    let (negative, ds) := splitSign cs
    if c.toLower == 'e' && !ds.isEmpty && ds.all isDigit then
      let n := valueOfDigits ds
      some (if negative then -n else n)
    else none

/-- The decimal of a text. Beyond four hundred places more than the text has digits, an exponent
makes every coefficient but zero infinite or zero, so larger ones count as that. -/
def Decimal.read? (cs : List Char) : Option Decimal :=
  let whole := cs.takeWhile isDigit
  let rest := cs.dropWhile isDigit
  let (fraction, rest) :=
    match rest with
    | '.' :: ds => (ds.takeWhile isDigit, ds.dropWhile isDigit)
    | ds => ([], ds)
  if whole.isEmpty && fraction.isEmpty then none
  else
    (readExponent? rest).map fun e =>
      let limit : Int := (whole.length + fraction.length + 400 : Nat)
      ⟨valueOfDigits (whole ++ fraction), max (-limit) (min limit e) - fraction.length⟩

def read? (text : String) : Option Float :=
  let (negative, cs) := splitSign text.toList
  let word := String.ofList (cs.map Char.toLower)
  if word = "inf" ∨ word = "infinity" then some (ofSize negative infinityBits)
  else if word = "nan" then some nan
  else (Decimal.read? cs).map fun d => ofSize negative d.bits

end Varlet.Number
