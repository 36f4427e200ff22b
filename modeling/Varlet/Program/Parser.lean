import Varlet.Number.Reader
import Varlet.Program.Basic
import Varlet.Program.Error

/-! Reading programs by recursive descent. Every expression takes a level of nesting, and every
operator of a chain takes one more for the rest of that chain. -/

namespace Varlet

structure TokenStream where
  pending : List Token
  final : Token
  pending_kind : ∀ t ∈ pending, t.kind ≠ .eof
  final_kind : final.kind = .eof

namespace TokenStream

def ofTokens (ts : List Token) : TokenStream where
  pending := ts.takeWhile fun t => t.kind ≠ .eof
  final := (ts.find? fun t => t.kind = .eof).getD
    (.endAt ((ts.getLast?.map Token.stop).getD .start))
  pending_kind t ht := by
    simpa using List.all_eq_true.1 List.all_takeWhile t ht
  final_kind := by
    cases h : ts.find? fun t => t.kind = .eof with
    | none => rfl
    | some t => simpa using List.find?_some h

def current (s : TokenStream) : Token :=
  s.pending.head?.getD s.final

def advance (s : TokenStream) : TokenStream where
  pending := s.pending.tail
  final := s.final
  pending_kind t ht := s.pending_kind t (List.mem_of_mem_tail ht)
  final_kind := s.final_kind

end TokenStream

abbrev Parser := EStateM ParseError TokenStream

namespace Parser

def current : Parser Token := fun s => .ok s.current s

def skip : Parser Unit := fun s => .ok () s.advance

def accept (kind : Token.Kind) : Parser Bool := fun s =>
  if s.current.kind = kind then .ok true s.advance else .ok false s

def expect (kind : Token.Kind) (expected : Expectation) : Parser Token := fun s =>
  if s.current.kind = kind then .ok s.current s.advance
  else .error (.unexpectedToken s.current expected) s

def operator? (sort : Token.Kind → Option Operator) : Parser (Option Operator) := fun s =>
  match sort s.current.kind with
  | some op => .ok (some op) s.advance
  | none => .ok none s

def tooDeep {α : Type} : Parser α := fun s => .error (.nestingTooDeep s.current) s

def property (value : Parser Expr) : Parser (Property Expr) := do
  let key ← expect .identifier .objectKey
  let next ← current
  if next.kind = .comma ∨ next.kind = .braceRight then throw (.shorthandProperty key)
  else
    let _ ← expect .colon .propertyColon
    let e ← value
    let next ← current
    if next.kind = .braceRight then return ⟨key.text, some e⟩
    else
      let _ ← expect .comma .propertySeparator
      return ⟨key.text, some e⟩

/-- Items up to a token at which they stop, behind those of `before`, which come last first. Each
takes a token, so `count` is the number of pending ones. -/
def items {α : Type} (stop : Token.Kind → Bool) (item : Parser α) (before : List α) :
    Nat → Parser (List α)
  | 0 => return before.reverse
  | count + 1 => do
    let next ← current
    if stop next.kind then return before.reverse
    else
      let a ← item
      items stop item (a :: before) count

def itemsUntil {α : Type} (stop : Token.Kind → Bool) (item : Parser α) (before : List α) :
    Parser (List α) := do
  items stop item before (← get).pending.length

def endsObject (kind : Token.Kind) : Bool := kind = .eof || kind = .braceRight

mutual

def expression (nesting : Nat) : Parser Expr :=
  match nesting with
  | 0 => tooDeep
  | n + 1 => do
    let target ← level n
    if ← accept .assign then
      let value ← expression n
      return .assignment target value
    else return target
termination_by 6 * nesting

def level (n : Nat) : Parser Expr := do
  if ← accept .braceLeft then
    let ps ← itemsUntil endsObject (property (expression n)) []
    let _ ← expect .braceRight .closingBrace
    return .object ps
  else sum n
termination_by 6 * n + 5

def sum (n : Nat) : Parser Expr := do
  let left ← product n
  sumRest n left
termination_by 6 * n + 4

def sumRest (n : Nat) (left : Expr) : Parser Expr := do
  match ← operator? Token.Kind.additive? with
  | none => return left
  | some op =>
    match n with
    | 0 => tooDeep
    | n + 1 =>
      let right ← product n
      sumRest n (.binary left op right)
termination_by 6 * n + 3

def product (n : Nat) : Parser Expr := do
  let left ← primary n
  productRest n left
termination_by 6 * n + 2

def productRest (n : Nat) (left : Expr) : Parser Expr := do
  match ← operator? Token.Kind.multiplicative? with
  | none => return left
  | some op =>
    match n with
    | 0 => tooDeep
    | n + 1 =>
      let right ← primary n
      productRest n (.binary left op right)
termination_by 6 * n

def primary (n : Nat) : Parser Expr := do
  let token ← current
  match token.kind with
  | .identifier =>
    skip
    return .identifier token.text
  | .number =>
    skip
    match Number.read? token.text with
    | some x => return .number x
    | none => throw (.unexpectedToken token .expression)
  | .parenLeft =>
    skip
    let e ← expression n
    let _ ← expect .parenRight .closingParenthesis
    return e
  | .keywordNull =>
    skip
    return .null
  | _ => throw (.unexpectedToken token .expression)
termination_by 6 * n + 1

end

def declaration (nesting : Nat) : Parser Statement := do
  skip
  let mutable ← accept .keywordMut
  let name ← expect .identifier .variableName
  if ← accept .assign then
    let e ← expression nesting
    return .declaration mutable name.text (some e)
  else if mutable then return .declaration true name.text none
  else throw (.missingInitializer name)

def statement (nesting : Nat) : Parser Statement := do
  match (← current).kind with
  | .keywordVar | .keywordMut => declaration nesting
  | _ =>
    let e ← expression nesting
    return .expression e

def programWithin (nesting : Nat) : Parser Program := do
  let body ← itemsUntil (· = .eof) (statement nesting) []
  return ⟨body⟩

def program : Parser Program := programWithin maxNesting

def programs (s : TokenStream) : Nat → List (Except ParseError Program)
  | 0 => []
  | count + 1 =>
    match program s with
    | .ok p rest => .ok p :: programs rest count
    | .error e rest => .error e :: programs rest count

end Parser

def Program.ofTokens (ts : List Token) : Except ParseError Program :=
  match Parser.program (.ofTokens ts) with
  | .ok p _ => .ok p
  | .error e _ => .error e

end Varlet
