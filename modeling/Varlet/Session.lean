import Varlet.Evaluation
import Varlet.Program.Parser
import Varlet.Token.Lexer

namespace Varlet

inductive Error where
  | lex (e : LexError)
  | parse (e : ParseError)
  | runtime (e : RuntimeError)

def Error.message : Error → String
  | lex e => "Lex error: " ++ e.message
  | parse e => "Parse error: " ++ e.message
  | runtime e => "Runtime error: " ++ e.message

def parse (source : String) : Except Error Program := do
  let tokens ← (tokenize source).mapError .lex
  (Program.ofTokens tokens).mapError .parse

structure Session where
  chain : Chain

namespace Session

def start : Session :=
  match Evaluation.declareGlobals ⟨.empty, []⟩ with
  | .ok _ c => ⟨c⟩
  | .error _ c => ⟨c⟩

structure Answer where
  result : Except Error Value
  emitted : List Value
  session : Session

def evaluate (s : Session) (p : Program) (echo : Echo) : Answer :=
  let r := p.run echo s.chain
  ⟨r.result.mapError .runtime, r.emitted, ⟨r.chain⟩⟩

def run (s : Session) (source : String) (echo : Echo) : Answer :=
  match parse source with
  | .ok p => s.evaluate p echo
  | .error e => ⟨.error e, [], s⟩

end Session

end Varlet
