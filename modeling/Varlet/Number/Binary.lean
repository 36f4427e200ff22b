/-! Doubles as exact numbers. Every finite double is a whole number of steps of 2^-1074, the
distance between the smallest ones, so sizes and remainders are natural numbers. -/

namespace Varlet.Number

inductive Form where
  | nan
  | infinite (negative : Bool)
  | finite (negative : Bool) (steps : Nat)
deriving DecidableEq

def Form.ofBits (bits : Nat) : Form :=
  let negative := decide (Nat.pow 2 63 ≤ bits)
  let exponent := bits / Nat.pow 2 52 % Nat.pow 2 11
  let fraction := bits % Nat.pow 2 52
  if exponent = 2047 then
    if fraction = 0 then .infinite negative else .nan
  else if exponent = 0 then .finite negative fraction
  else .finite negative ((Nat.pow 2 52 + fraction) * Nat.pow 2 (exponent - 1))

def Form.ofFloat (x : Float) : Form :=
  .ofBits x.toBits.toNat

def roundDiv (num den : Nat) : Nat :=
  let q := num / den
  let twice := 2 * (num % den)
  if twice < den ∨ (twice = den ∧ q % 2 = 0) then q else q + 1

def infinityBits : Nat := 2047 * Nat.pow 2 52

/-- The bit pattern of the double nearest to `num / den` steps. A quotient of more than 53 binary
places loses `dropped` of them; each dropped place moves the pattern up by one exponent, and a
rounding that carries moves it there by itself. -/
def nearestBits (num den : Nat) : Nat :=
  let dropped := (num / den).log2 - 52
  min (dropped * Nat.pow 2 52 + roundDiv num (den * Nat.pow 2 dropped)) infinityBits

def ofSize (negative : Bool) (bits : Nat) : Float :=
  Float.ofBits (UInt64.ofNat (if negative then Nat.pow 2 63 + bits else bits))

def nan : Float := ofSize false (infinityBits + Nat.pow 2 51)

def remainder (x y : Float) : Float :=
  match Form.ofFloat x, Form.ofFloat y with
  | .finite negative a, .finite _ b =>
    if b = 0 then nan else ofSize negative (nearestBits (a % b) 1)
  | .finite _ _, .infinite _ => x
  | _, _ => nan

end Varlet.Number
