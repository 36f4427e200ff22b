import Varlet.Scope.Basic

/-! Evaluation: what expressions, statements and programs make of a chain of scopes. A failure
leaves the changes that were made before it. -/

namespace Varlet

abbrev Evaluation := EStateM RuntimeError Chain

namespace Evaluation

def lookup (name : String) : Evaluation Value := fun c =>
  match c.owner? name with
  | none => .error (.undefinedVariable name) c
  | some s =>
    match s.value? name with
    | some v => .ok v c
    | none => .error (.undefinedVariable name) c

def declare (name : String) (v : Value) (mutable : Bool) : Evaluation Value := fun c =>
  match c.declare name v mutable with
  | .ok c => .ok v c
  | .error e => .error e c

def assign (name : String) (v : Value) : Evaluation Value := fun c =>
  match c.assign name v with
  | .ok c => .ok v c
  | .error e => .error e c

def declareGlobals : Evaluation Unit := do
  let _ ← declare "true" (.boolean true) false
  let _ ← declare "false" (.boolean false) false

end Evaluation

mutual

def Expr.evaluate : Expr → Evaluation Value
  | .number x => return .number x
  | .null => return .null
  | .identifier name => Evaluation.lookup name
  | .binary left op right => do
    let a ← left.evaluate
    let b ← right.evaluate
    return op.combine a b
  | .assignment (.identifier name) value => do
    let v ← value.evaluate
    Evaluation.assign name v
  | .assignment target _ => throw (.invalidAssignmentTarget target.kind)
  | .object ps => do
    let fields ← evaluateProperties [] ps
    return .object fields

def evaluateProperties (fields : List (String × Value)) :
    List (Property Expr) → Evaluation (List (String × Value))
  | [] => return fields
  | ⟨key, some e⟩ :: ps => do
    let v ← e.evaluate
    evaluateProperties (Keyed.insert key v fields) ps
  | ⟨key, none⟩ :: ps => do
    let v ← Evaluation.lookup key
    evaluateProperties (Keyed.insert key v fields) ps

end

def Statement.evaluate : Statement → Evaluation Value
  | .declaration mutable name (some e) => do
    let v ← e.evaluate
    Evaluation.declare name v mutable
  | .declaration mutable name none => Evaluation.declare name .null mutable
  | .expression e => e.evaluate

def Statement.echoes : Statement → Bool
  | .expression (.assignment _ _) => false
  | .expression _ => true
  | .declaration _ _ _ => false

inductive Echo where
  | statements
  | suppressed
deriving DecidableEq

structure Run where
  result : Except RuntimeError Value
  emitted : List Value
  chain : Chain

/-- Runs statements up to the first that fails. `last` is the value of the statement before them,
and `emitted` holds what was emitted before, last first. -/
def runStatements (echo : Echo) (last : Value) (emitted : List Value) :
    List Statement → Chain → Run
  | [], c => ⟨.ok last, emitted.reverse, c⟩
  | s :: ss, c =>
    match s.evaluate c with
    | .error e c => ⟨.error e, emitted.reverse, c⟩
    | .ok v c =>
      let emitted := if echo = .statements ∧ s.echoes then v :: emitted else emitted
      runStatements echo v emitted ss c

def Program.run (p : Program) (echo : Echo) (c : Chain) : Run :=
  runStatements echo .null [] p.body c

end Varlet
