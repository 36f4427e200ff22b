import Varlet.Number.Binary

namespace Varlet.Number

structure Decimal where
  coefficient : Nat
  exponent : Int
deriving DecidableEq

namespace Decimal

def bits (d : Decimal) : Nat :=
  match d.exponent with
  | .ofNat n => nearestBits (d.coefficient * Nat.pow 10 n * Nat.pow 2 1074) 1
  | .negSucc n => nearestBits (d.coefficient * Nat.pow 2 1074) (Nat.pow 10 (n + 1))

def trim (d : Decimal) : Decimal :=
  if d.coefficient ≠ 0 ∧ d.coefficient % 10 = 0 then
    trim ⟨d.coefficient / 10, d.exponent + 1⟩
  else d
termination_by d.coefficient
decreasing_by omega

def digits (n : Nat) : List Char := Nat.toDigits 10 n

/-- The neighbours of `scaled * 10 ^ -1074` among the decimals whose coefficient counts units of
`10 ^ drop` there: the nearer one first, and of two that are equally near the larger one. -/
def neighbours (scaled drop : Nat) : List Decimal :=
  let unit := Nat.pow 10 drop
  let below : Decimal := trim ⟨scaled / unit, drop - 1074⟩
  let above : Decimal := trim ⟨scaled / unit + 1, drop - 1074⟩
  if 2 * (scaled % unit) < unit then [below, above] else [above, below]

def search (target scaled drop : Nat) : Nat → Decimal
  | 0 => trim ⟨scaled, -1074⟩
  | tries + 1 =>
    match (neighbours scaled drop).find? fun d => d.bits = target with
    | some d => d
    | none => search target scaled (drop - 1) tries

/-- The decimal with the fewest digits that reads back as the double of that many steps, and of
several the nearest one. The logarithm of 2 is just below 0.30103, which gives the first unit. -/
def shortest (steps : Nat) : Decimal :=
  if steps = 0 then ⟨0, 0⟩
  else
    let scaled := steps * Nat.pow 5 1074
    search (nearestBits steps 1) scaled ((scaled.log2 + 1) * 30103 / 100000) 18

end Decimal

end Varlet.Number
