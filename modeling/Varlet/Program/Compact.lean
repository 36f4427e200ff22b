import Varlet.Number.Format
import Varlet.Program.Basic

/-! Trees as texts: on one line with the operator first, and as pictures of nested groups. -/

namespace Varlet

mutual

def Expr.compact : Expr → String
  | .assignment t v => "(= " ++ t.compact ++ " " ++ v.compact ++ ")"
  | .binary l op r => "(" ++ op.symbol ++ " " ++ l.compact ++ " " ++ r.compact ++ ")"
  | .identifier n => "id:" ++ n
  | .number x => "num:" ++ Number.plain.write x
  | .null => "null"
  | .object ps => "(obj" ++ compactProperties ps ++ ")"

def compactProperties : List (Property Expr) → String
  | [] => ""
  | ⟨k, none⟩ :: ps => " (" ++ k ++ ")" ++ compactProperties ps
  | ⟨k, some e⟩ :: ps => " (" ++ k ++ " " ++ e.compact ++ ")" ++ compactProperties ps

end

def Statement.compact : Statement → String
  | .expression e => "(expr " ++ e.compact ++ ")"
  | .declaration mutable name initializer =>
    let keyword := if mutable then "mut" else "var"
    match initializer with
    | none => "(" ++ keyword ++ " " ++ name ++ ")"
    | some e => "(" ++ keyword ++ " " ++ name ++ " " ++ e.compact ++ ")"

inductive Outline.Shape where
  | tuple
  | record
  | list

inductive Outline where
  | atom (text : String)
  | group (shape : Outline.Shape) (name : String) (items : List (String × Outline))

namespace Outline

namespace Shape

def opening : Shape → String
  | tuple => "("
  | record => " \x7b"
  | list => "["

def closing : Shape → String
  | tuple => ")"
  | record => "\x7d"
  | list => "]"

def margin : Shape → String
  | record => " "
  | tuple | list => ""

end Shape

mutual

def plain : Outline → String
  | .atom text => text
  | .group shape name items =>
    name ++ shape.opening ++ shape.margin ++ plainItems items ++ shape.margin ++ shape.closing

def plainItems : List (String × Outline) → String
  | [] => ""
  | [(label, item)] => label ++ item.plain
  | (label, item) :: items => label ++ item.plain ++ ", " ++ plainItems items

end

def indentation (depth : Nat) : String :=
  String.ofList (List.replicate (4 * depth) ' ')

mutual

def pretty (depth : Nat) : Outline → String
  | .atom text => text
  | .group shape name [] => name ++ shape.opening ++ shape.closing
  | .group shape name (item :: items) =>
    name ++ shape.opening ++ "\n" ++ prettyItems depth (item :: items) ++
      indentation depth ++ shape.closing

def prettyItems (depth : Nat) : List (String × Outline) → String
  | [] => ""
  | (label, item) :: items =>
    indentation (depth + 1) ++ label ++ item.pretty (depth + 1) ++ ",\n" ++
      prettyItems depth items

end

def tuple (name : String) (item : Outline) : Outline :=
  .group .tuple name [("", item)]

def record (name : String) (fields : List (String × Outline)) : Outline :=
  .group .record name (fields.map fun f => (f.1 ++ ": ", f.2))

def list (items : List Outline) : Outline :=
  .group .list "" (items.map fun i => ("", i))

def ofOption : Option Outline → Outline
  | none => .atom "None"
  | some o => tuple "Some" o

/-- A name in quotes. Its letters stand for themselves, but for the one that would combine with
the character before it. -/
def quoted (name : String) : Outline :=
  let letter (c : Char) : String :=
    if c.toNat = 0x345 then "\\u\x7b345\x7d" else c.toString
  .atom ("\"" ++ String.join (name.toList.map letter) ++ "\"")

end Outline

def propertyOutline (key : String) (value : Option Outline) : Outline :=
  .record "Property" [("key", .quoted key), ("value", .ofOption value)]

mutual

def Expr.outline : Expr → Outline
  | .assignment t v => .record "Assignment" [("target", t.outline), ("value", v.outline)]
  | .binary l op r =>
    .record "Binary" [("left", l.outline), ("operator", .atom op.name), ("right", r.outline)]
  | .identifier n => .tuple "Identifier" (.quoted n)
  | .number x => .tuple "NumericLiteral" (.atom (Number.literal.write x))
  | .null => .atom "NullLiteral"
  | .object ps => .tuple "Object" (.list (outlineProperties ps))

def outlineProperties : List (Property Expr) → List Outline
  | [] => []
  | ⟨k, none⟩ :: ps => propertyOutline k none :: outlineProperties ps
  | ⟨k, some e⟩ :: ps => propertyOutline k (some e.outline) :: outlineProperties ps

end

def Statement.outline : Statement → Outline
  | .expression e => .tuple "Expression" e.outline
  | .declaration mutable name initializer =>
    .record "VariableDeclaration"
      [("mutable", .atom (toString mutable)), ("name", .quoted name),
        ("initializer", .ofOption (initializer.map Expr.outline))]

def Program.outline (p : Program) : Outline :=
  .record "Program" [("body", .list (p.body.map Statement.outline))]

end Varlet
