import Varlet.Number.Decimal

namespace Varlet.Number

namespace Decimal

def magnitude (d : Decimal) : Int :=
  d.exponent + ((digits d.coefficient).length - 1 : Nat)

def positional (whole : List Char) (d : Decimal) : List Char :=
  match d.exponent with
  | .ofNat n => digits d.coefficient ++ List.replicate n '0' ++ whole
  | .negSucc n =>
    let ds := digits d.coefficient
    let padded := List.replicate (n + 2 - ds.length) '0' ++ ds
    let point := padded.length - (n + 1)
    padded.take point ++ '.' :: padded.drop point

def scientific (d : Decimal) : List Char :=
  let mantissa :=
    match digits d.coefficient with
    | c :: cs => if cs.isEmpty then [c] else c :: '.' :: cs
    | [] => []
  mantissa ++ 'e' :: (toString d.magnitude).toList

end Decimal

structure Format where
  positional : Int → Bool
  whole : List Char
  infinity : String

def Format.write (f : Format) (x : Float) : String :=
  let sign (negative : Bool) : String := if negative then "-" else ""
  match Form.ofFloat x with
  | .nan => "NaN"
  | .infinite negative => sign negative ++ f.infinity
  | .finite negative steps =>
    let d := Decimal.shortest steps
    sign negative ++ String.ofList
      (if f.positional d.magnitude then d.positional f.whole else d.scientific)

def plain : Format where
  positional _ := true
  whole := []
  infinity := "Infinity"

def literal : Format where
  positional e := -4 ≤ e && e < 16
  whole := ['.', '0']
  infinity := "inf"

end Varlet.Number
