import Varlet.Program.Basic

namespace Varlet

structure Position where
  line : Int
  column : Int
deriving DecidableEq

namespace Position

def start : Position := ⟨1, 1⟩

def greatest : Int := 2147483647

/-- Lines and columns are numbers of 32 bits: behind the greatest follows the least. -/
def count (n : Int) : Int :=
  if n < greatest then n + 1 else -greatest - 1

def step (p : Position) (c : Char) : Position :=
  if c = '\n' then ⟨count p.line, 1⟩ else ⟨p.line, count p.column⟩

def after (p : Position) (cs : List Char) : Position :=
  cs.foldl step p

def display (p : Position) : String :=
  "[line " ++ toString p.line ++ " column " ++ toString p.column ++ "]"

@[simp] theorem after_nil (p : Position) : p.after [] = p := rfl

@[simp] theorem after_cons (p : Position) (c : Char) (cs : List Char) :
    p.after (c :: cs) = (p.step c).after cs := rfl

theorem after_append (p : Position) (cs ds : List Char) :
    p.after (cs ++ ds) = (p.after cs).after ds := List.foldl_append

end Position

inductive Token.Kind where
  | parenLeft
  | parenRight
  | braceLeft
  | braceRight
  | comma
  | colon
  | assign
  | plus
  | minus
  | multiply
  | divide
  | modulo
  | identifier
  | number
  | keywordVar
  | keywordMut
  | keywordNull
  | eof
deriving DecidableEq

structure Token where
  kind : Token.Kind
  text : String
  start : Position
  stop : Position
deriving DecidableEq

namespace Token

namespace Kind

def all : List Kind :=
  [parenLeft, parenRight, braceLeft, braceRight, comma, colon, assign, plus, minus, multiply,
    divide, modulo, identifier, number, keywordVar, keywordMut, keywordNull,
    eof]

def name : Kind → String
  | parenLeft => "ParenthesisLeft"
  | parenRight => "ParenthesisRight"
  | braceLeft => "BracketLeft"
  | braceRight => "BracketRight"
  | comma => "Comma"
  | colon => "Colon"
  | assign => "Assign"
  | plus => "Plus"
  | minus => "Minus"
  | multiply => "Multiply"
  | divide => "Divide"
  | modulo => "Modulo"
  | identifier => "Identifier"
  | number => "Number"
  | keywordVar => "Var"
  | keywordMut => "Mut"
  | keywordNull => "Null"
  | eof => "Eof"

def ofPunctuation? : Char → Option Kind
  | '(' => some parenLeft
  | ')' => some parenRight
  | '{' => some braceLeft
  | '}' => some braceRight
  | ',' => some comma
  | ':' => some colon
  | '=' => some assign
  | '+' => some plus
  | '-' => some minus
  | '*' => some multiply
  | '/' => some divide
  | '%' => some modulo
  | _ => none

def ofWord (word : List Char) : Kind :=
  if word = ['v', 'a', 'r'] then keywordVar
  else if word = ['m', 'u', 't'] then keywordMut
  else if word = ['n', 'u', 'l', 'l'] then keywordNull
  else identifier

def operator? : Kind → Option Operator
  | plus => some .add
  | minus => some .subtract
  | multiply => some .multiply
  | divide => some .divide
  | modulo => some .modulo
  | _ => none

def additive? (k : Kind) : Option Operator :=
  k.operator?.filter Operator.isAdditive

def multiplicative? (k : Kind) : Option Operator :=
  k.operator?.filter fun op => !op.isAdditive

end Kind

def endAt (p : Position) : Token := ⟨.eof, "", p, p⟩

def display (t : Token) : String :=
  if t.kind = .eof then "end of input" else "`" ++ t.text ++ "`"

end Token

end Varlet
