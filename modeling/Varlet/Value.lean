import Varlet.Keyed
import Varlet.Number.Format
import Varlet.Program.Basic

namespace Varlet

inductive Value where
  | null
  | number (x : Float)
  | boolean (b : Bool)
  | object (fields : List (String × Value))

namespace Value

def typeName : Value → String
  | null => "null"
  | number _ => "number"
  | boolean _ => "boolean"
  | object _ => "object"

def ofFields (fields : List (String × Value)) : Value :=
  .object (Keyed.ofList fields)

mutual

def display : Value → String
  | .null => "null"
  | .number x => Number.plain.write x
  | .boolean b => if b then "true" else "false"
  | .object [] => "\x7b\x7d"
  | .object (field :: fields) => "\x7b " ++ displayFields (field :: fields) ++ " \x7d"

def displayFields : List (String × Value) → String
  | [] => ""
  | [(key, v)] => key ++ ": " ++ v.display
  | (key, v) :: fields => key ++ ": " ++ v.display ++ ", " ++ displayFields fields

end

mutual

def same : Value → Value → Bool
  | .null, .null => true
  | .number x, .number y => x == y
  | .boolean a, .boolean b => a == b
  | .object fs, .object gs => sameFields fs gs
  | _, _ => false

def sameFields : List (String × Value) → List (String × Value) → Bool
  | [], [] => true
  | (k, v) :: fs, (l, w) :: gs => k == l && v.same w && sameFields fs gs
  | _, _ => false

end

end Value

namespace Operator

def apply : Operator → Float → Float → Float
  | add, x, y => x + y
  | subtract, x, y => x - y
  | multiply, x, y => x * y
  | divide, x, y => x / y
  | modulo, x, y => Number.remainder x y

def combine (op : Operator) : Value → Value → Value
  | .number x, .number y => .number (op.apply x y)
  | _, _ => .null

end Operator

end Varlet
