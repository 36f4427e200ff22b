/-! Comments are blanked, not removed, so that every other character keeps its place.
Line comments go first, also those inside a block comment; block comments do not nest. -/

namespace Varlet.Comment

def blank (c : Char) : Char :=
  if c = '\n' then c else ' '

def blankLines (inside : Bool) : List Char → List Char
  | [] => []
  | c :: cs =>
    if c = '\n' then c :: blankLines false cs
    else if inside || (c == '/' && cs.head? == some '/') then ' ' :: blankLines true cs
    else c :: blankLines false cs

def closing? : List Char → Option Nat
  | [] => none
  | c :: cs =>
    if c = '*' ∧ cs.head? = some '/' then some 2 else (closing? cs).map (· + 1)

/-- Blanks `inside` more characters of an open block comment, and every closed block comment
behind them. An opening without a closing ends the work: all that follows stays. -/
def blankBlocks (inside : Nat) : List Char → List Char
  | [] => []
  | c :: cs =>
    match inside with
    | n + 1 => blank c :: blankBlocks n cs
    | 0 =>
      if c = '/' ∧ cs.head? = some '*' then
        match closing? cs.tail with
        | some n => ' ' :: blankBlocks (n + 1) cs
        | none => c :: cs
      else c :: blankBlocks 0 cs

def blankAll (cs : List Char) : List Char :=
  blankBlocks 0 (blankLines false cs)

def strip (source : String) : String :=
  String.ofList (blankAll source.toList)

end Varlet.Comment
