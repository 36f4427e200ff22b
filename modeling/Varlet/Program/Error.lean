import Varlet.Token.Basic

namespace Varlet

inductive Expectation where
  | variableName
  | declarationAssign
  | objectKey
  | propertyColon
  | propertySeparator
  | closingBrace
  | closingParenthesis
  | expression
deriving DecidableEq

namespace Expectation

def all : List Expectation :=
  [variableName, declarationAssign, objectKey, propertyColon, propertySeparator, closingBrace,
    closingParenthesis, expression]

def name : Expectation → String
  | variableName => "VariableName"
  | declarationAssign => "DeclarationAssign"
  | objectKey => "ObjectKey"
  | propertyColon => "PropertyColon"
  | propertySeparator => "PropertySeparator"
  | closingBrace => "ClosingBracket"
  | closingParenthesis => "ClosingParenthesis"
  | expression => "Expression"

def description : Expectation → String
  | variableName => "variable name after declaration keyword(s)"
  | declarationAssign => "'=' after variable name"
  | objectKey => "key in object literal"
  | propertyColon => "':' after object key"
  | propertySeparator => "',' or '\x7d' after key/value pair"
  | closingBrace => "'\x7d' after object literal"
  | closingParenthesis => "')' after expression"
  | expression => "expression"

end Expectation

def maxNesting : Nat := 2048

inductive ParseError where
  | unexpectedToken (found : Token) (expected : Expectation)
  | missingInitializer (name : Token)
  | shorthandProperty (key : Token)
  | nestingTooDeep (token : Token)
deriving DecidableEq

namespace ParseError

def token : ParseError → Token
  | unexpectedToken found _ => found
  | missingInitializer name => name
  | shorthandProperty key => key
  | nestingTooDeep token => token

def reason : ParseError → String
  | unexpectedToken found expected =>
    "Expected " ++ expected.description ++ ", found " ++ found.display
  | missingInitializer name =>
    "Non-mutable variable '" ++ name.text ++ "' must be initialized"
  | shorthandProperty key =>
    "Value required for key '" ++ key.text ++
      "' in object literal (shorthand properties are unsupported)"
  | nestingTooDeep _ =>
    "Expression nested deeper than " ++ toString maxNesting ++ " levels"

def message (e : ParseError) : String :=
  e.token.start.display ++ " " ++ e.reason

end ParseError

end Varlet
