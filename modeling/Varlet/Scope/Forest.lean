import Varlet.Evaluation

/-! Live scopes that know their parents by identity. A scope that is dropped ends the chain of
every scope inside it, for identities are never used again. -/

namespace Varlet

structure Forest.Node where
  id : Nat
  parent : Option Nat
  scope : Scope

/-- The live scopes, newest first: a parent is always among the older ones. -/
structure Forest where
  nodes : List Forest.Node
  next : Nat

namespace Forest

def empty : Forest := ⟨[], 0⟩

def lineage : List Node → Option Nat → List Node
  | [], _ => []
  | _, none => []
  | n :: older, some id =>
    if n.id = id then n :: lineage older n.parent else lineage older (some id)

def restore : List Node → Option Nat → List Scope → List Node
  | n :: older, some id, s :: scopes =>
    if n.id = id then { n with scope := s } :: restore older n.parent scopes
    else n :: restore older (some id) (s :: scopes)
  | nodes, _, _ => nodes

def chain? (f : Forest) (id : Nat) : Option Chain :=
  Chain.ofScopes? ((lineage f.nodes (some id)).map Node.scope)

def create (f : Forest) (parent : Option Nat) : Nat × Forest :=
  (f.next, ⟨⟨f.next, parent, .empty⟩ :: f.nodes, f.next + 1⟩)

def drop (f : Forest) (id : Nat) : Forest :=
  { f with nodes := f.nodes.filter fun n => n.id ≠ id }

def resolve (f : Forest) (id : Nat) (name : String) : Except RuntimeError Nat :=
  match (lineage f.nodes (some id)).find? fun n => n.scope.has name with
  | some n => .ok n.id
  | none => .error (.undefinedVariable name)

def has (f : Forest) (id : Nat) (name : String) : Bool :=
  ((lineage f.nodes (some id)).head?.map fun n => n.scope.has name).getD false

def update (f : Forest) (id : Nat) (c : Chain) : Forest :=
  { f with nodes := restore f.nodes (some id) c.scopes }

def evaluate? {α : Type} (f : Forest) (id : Nat) (m : Evaluation α) :
    Option (Except RuntimeError α × Forest) :=
  (f.chain? id).map fun c =>
    match m c with
    | .ok a c => (.ok a, f.update id c)
    | .error e c => (.error e, f.update id c)

def run? (f : Forest) (id : Nat) (p : Program) (echo : Echo) :
    Option (Except RuntimeError Value × List Value × Forest) :=
  (f.chain? id).map fun c =>
    let r := p.run echo c
    (r.result, r.emitted, f.update id r.chain)

end Forest

end Varlet
