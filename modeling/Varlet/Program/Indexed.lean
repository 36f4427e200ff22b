import Varlet.Program.Parser

/-! Reading programs by an index into the tokens and a depth of nesting. A token that is not there,
a level that was not entered and a run without an end are ways to halt. -/

namespace Varlet.Indexed

structure Place where
  index : Nat
  depth : Nat

structure State where
  tokens : List Token
  place : Place
  trail : List Place

inductive Halt where
  | fault (e : ParseError)
  | noToken
  | negativeDepth
  | timeout

abbrev Reader := EStateM Halt State

variable {α σ : Type}

namespace State

def ofTokens (ts : List Token) : State where
  tokens :=
    if ts.getLast?.map Token.kind = some .eof then ts
    else ts ++ [.endAt ((ts.getLast?.map Token.stop).getD .start)]
  place := ⟨0, 0⟩
  trail := []

def history (s : State) : List Place := s.place :: s.trail

def moveTo (s : State) (p : Place) : State where
  tokens := s.tokens
  place := p
  trail := s.history

end State

def tokenAt (index : Nat) : Reader Token := fun s =>
  match s.tokens[index]? with
  | some t => .ok t s
  | none => .error .noToken s

def fail (e : ParseError) : Reader α := throw (Halt.fault e)

def current : Reader Token := do
  tokenAt (← get).place.index

def previous : Reader Token := do
  tokenAt ((← get).place.index - 1)

def consume : Reader Unit := do
  if (← current).kind ≠ .eof then
    modify fun s => s.moveTo ⟨s.place.index + 1, s.place.depth⟩

def check (kind : Token.Kind) : Reader Bool := do
  return (← current).kind = kind

def accept (kind : Token.Kind) : Reader Bool := do
  if ← check kind then
    consume
    return true
  else return false

def expect (kind : Token.Kind) (expected : Expectation) : Reader Token := do
  if ← check kind then
    consume
    previous
  else
    let found ← current
    fail (.unexpectedToken found expected)

def operator? (sort : Token.Kind → Option Operator) : Reader (Option Operator) := do
  match sort (← current).kind with
  | none => return none
  | some op =>
    consume
    return some op

def setDepth (depth : Nat) : Reader Unit :=
  modify fun s => s.moveTo ⟨s.place.index, depth⟩

def enter : Reader Unit := do
  let depth := (← get).place.depth
  if maxNesting ≤ depth then
    let token ← current
    fail (.nestingTooDeep token)
  else setDepth (depth + 1)

def leave : Reader Unit := do
  match (← get).place.depth with
  | 0 => throw Halt.negativeDepth
  | depth + 1 => setDepth depth

def leaving (p : Reader α) : Reader α := fun s =>
  match p s with
  | .ok a s => (do leave; return a) s
  | .error (.fault e) s => (do leave; fail e) s
  | .error halt s => .error halt s

def loop (round : σ → Reader (σ ⊕ α)) : Nat → σ → Reader α
  | 0, _ => throw Halt.timeout
  | count + 1, a => do
    match ← round a with
    | .inl a => loop round count a
    | .inr b => return b

def itemRound (stop : Token.Kind → Bool) (item : Reader α) (before : List α) :
    Reader (List α ⊕ List α) := do
  if stop (← current).kind then return .inr before.reverse
  else
    let a ← item
    return .inl (a :: before)

/-- An operator takes a level that only the end of the chain gives back. -/
def chainRound (sort : Token.Kind → Option Operator) (operand : Reader Expr) (left : Expr) :
    Reader (Expr ⊕ Expr) := do
  match ← operator? sort with
  | none => return .inr left
  | some op =>
    enter
    let right ← operand
    return .inl (.binary left op right)

def chain (clock : Nat) (sort : Token.Kind → Option Operator) (operand : Reader Expr) :
    Reader Expr := do
  let depth := (← get).place.depth
  let first ← operand
  let e ← loop (chainRound sort operand) clock first
  setDepth depth
  return e

section

variable (clock : Nat) (value : Reader Expr)

def primary : Reader Expr := do
  if ← accept .identifier then return .identifier (← previous).text
  else if ← accept .number then
    let number ← previous
    match Number.read? number.text with
    | some x => return .number x
    | none => fail (.unexpectedToken number .expression)
  else if ← accept .parenLeft then
    let e ← value
    let _ ← expect .parenRight .closingParenthesis
    return e
  else if ← accept .keywordNull then return .null
  else
    let found ← current
    fail (.unexpectedToken found .expression)

def product : Reader Expr := chain clock Token.Kind.multiplicative? (primary value)

def sum : Reader Expr := chain clock Token.Kind.additive? (product clock value)

def property : Reader (Property Expr) := do
  let key ← expect .identifier .objectKey
  if (← check .comma) || (← check .braceRight) then fail (.shorthandProperty key)
  else
    let _ ← expect .colon .propertyColon
    let e ← value
    if ← check .braceRight then return ⟨key.text, some e⟩
    else
      let _ ← expect .comma .propertySeparator
      return ⟨key.text, some e⟩

def level : Reader Expr := do
  if ← accept .braceLeft then
    let ps ← loop (itemRound Parser.endsObject (property value)) clock []
    let _ ← expect .braceRight .closingBrace
    return .object ps
  else sum clock value

def assignment : Reader Expr := do
  let target ← level clock value
  if ← accept .assign then
    let e ← value
    return .assignment target e
  else return target

end

def expression : Nat → Reader Expr
  | 0 => throw Halt.timeout
  | clock + 1 => do
    enter
    leaving (assignment clock (expression clock))

def declaration (clock : Nat) : Reader Statement := do
  consume
  let mutable ← accept .keywordMut
  let name ← expect .identifier .variableName
  if ← check .assign then
    let _ ← expect .assign .declarationAssign
    let e ← expression clock
    return .declaration mutable name.text (some e)
  else if mutable then return .declaration mutable name.text none
  else fail (.missingInitializer name)

def statement (clock : Nat) : Reader Statement := do
  match (← current).kind with
  | .keywordVar | .keywordMut => declaration clock
  | _ =>
    let e ← expression clock
    return .expression e

def program (clock : Nat) : Reader Program := do
  setDepth 0
  let body ← loop (itemRound (· = .eof) (statement clock)) clock []
  return ⟨body⟩

def programs (clock : Nat) : Nat → State → List (EStateM.Result Halt State Program)
  | 0, _ => []
  | count + 1, s =>
    match program clock s with
    | .ok p s => .ok p s :: programs clock count s
    | .error halt s => .error halt s :: programs clock count s

end Varlet.Indexed
