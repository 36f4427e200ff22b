import Varlet.Program.Basic
import Varlet.Value

namespace Varlet

inductive RuntimeError where
  | undefinedVariable (name : String)
  | redeclaration (name : String)
  | assignToConstant (name : String)
  | invalidAssignmentTarget (kind : NodeKind)
deriving DecidableEq

def RuntimeError.message : RuntimeError → String
  | undefinedVariable name => "Variable '" ++ name ++ "' does not exist"
  | redeclaration name => "Cannot redeclare variable '" ++ name ++ "' in the same scope"
  | assignToConstant name =>
    "Cannot reassign the value of non-mutable variable '" ++ name ++ "'"
  | invalidAssignmentTarget kind =>
    "Cannot assign to " ++ kind.name ++ "; only identifiers are assignable"

structure Scope where
  bindings : List (String × Value)
  constants : List (String × Unit)

namespace Scope

def empty : Scope := ⟨[], []⟩

def value? (s : Scope) (name : String) : Option Value :=
  s.bindings.lookup name

def has (s : Scope) (name : String) : Bool :=
  (s.value? name).isSome

def isConstant (s : Scope) (name : String) : Bool :=
  (s.constants.lookup name).isSome

def put (s : Scope) (name : String) (v : Value) : Scope :=
  { s with bindings := Keyed.insert name v s.bindings }

def protect (s : Scope) (name : String) : Scope :=
  { s with constants := Keyed.insert name () s.constants }

def declare (s : Scope) (name : String) (v : Value) (mutable : Bool) :
    Except RuntimeError Scope :=
  if s.has name then .error (.redeclaration name)
  else if mutable then .ok (s.put name v)
  else .ok ((s.put name v).protect name)

def assign (s : Scope) (name : String) (v : Value) : Except RuntimeError Scope :=
  if s.isConstant name then .error (.assignToConstant name) else .ok (s.put name v)

@[simp] theorem value?_put_self (s : Scope) (name : String) (v : Value) :
    (s.put name v).value? name = some v :=
  Keyed.lookup_insert_self name v s.bindings

theorem value?_put_of_ne {name other : String} (h : other ≠ name) (s : Scope) (v : Value) :
    (s.put name v).value? other = s.value? other :=
  Keyed.lookup_insert_of_ne h v s.bindings

@[simp] theorem value?_protect (s : Scope) (name other : String) :
    (s.protect name).value? other = s.value? other := rfl

@[simp] theorem isConstant_put (s : Scope) (name other : String) (v : Value) :
    (s.put name v).isConstant other = s.isConstant other := rfl

@[simp] theorem isConstant_protect_self (s : Scope) (name : String) :
    (s.protect name).isConstant name = true := by
  rw [isConstant, protect, Keyed.lookup_insert_self, Option.isSome_some]

theorem isConstant_protect_of_ne {name other : String} (h : other ≠ name) (s : Scope) :
    (s.protect name).isConstant other = s.isConstant other := by
  rw [isConstant, protect, Keyed.lookup_insert_of_ne h, isConstant]

end Scope

def assignNearest (name : String) (v : Value) : List Scope → Except RuntimeError (List Scope)
  | [] => .error (.undefinedVariable name)
  | s :: scopes =>
    if s.has name then (s.assign name v).map (· :: scopes)
    else (assignNearest name v scopes).map (s :: ·)

structure Chain where
  inner : Scope
  outer : List Scope

namespace Chain

def scopes (c : Chain) : List Scope := c.inner :: c.outer

def ofScopes? : List Scope → Option Chain
  | [] => none
  | s :: scopes => some ⟨s, scopes⟩

def owner? (c : Chain) (name : String) : Option Scope :=
  c.scopes.find? (·.has name)

def declare (c : Chain) (name : String) (v : Value) (mutable : Bool) : Except RuntimeError Chain :=
  (c.inner.declare name v mutable).map fun s => { c with inner := s }

def assign (c : Chain) (name : String) (v : Value) : Except RuntimeError Chain :=
  if c.inner.has name then (c.inner.assign name v).map fun s => { c with inner := s }
  else (assignNearest name v c.outer).map fun scopes => { c with outer := scopes }

end Chain

end Varlet
