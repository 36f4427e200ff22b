import Varlet.Shell

namespace Varlet.Script

inductive ReadError where
  | notFound
  | notText
  | failed (reason : String)

def ReadError.message : ReadError → String
  | notFound => "No such file or directory (os error 2)"
  | notText => "stream did not contain valid UTF-8"
  | failed reason => reason

def decode (input : ByteArray) : Except ReadError String :=
  match String.fromUTF8? input with
  | some source => .ok source
  | none => .error .notText

inductive Report where
  | unreadable (e : ReadError)
  | rejected (e : Error)
  | finished (p : Program) (a : Session.Answer)

def report : Except ReadError String → Report
  | .error e => .unreadable e
  | .ok source =>
    match parse source with
    | .error e => .rejected e
    | .ok p => .finished p (Session.start.evaluate p .statements)

def Report.outcome (path : String) (showTree : Bool) : Report → Outcome
  | .unreadable e => ⟨1, "", "Cannot read " ++ path ++ ": " ++ e.message ++ "\n"⟩
  | .rejected e => ⟨1, "", "[" ++ path ++ "] " ++ e.message ++ "\n"⟩
  | .finished p a =>
    let tree := if showTree then "Tree:\n" ++ p.outline.pretty 0 ++ "\n\n" else ""
    let shown := tree ++ String.join (a.emitted.map fun v => v.display ++ "\n")
    match a.result with
    | .ok v => ⟨0, shown ++ "\nResult: " ++ v.display ++ "\n", ""⟩
    | .error e => ⟨1, shown, "[" ++ path ++ "] " ++ e.message ++ "\n"⟩

def run (path : String) (showTree : Bool) (source : Except ReadError String) : Outcome :=
  (report source).outcome path showTree

end Varlet.Script
