import Varlet.Program.Compact
import Varlet.Session
import Varlet.Text.Classes

namespace Varlet

structure Outcome where
  exit : Nat
  stdout : String
  stderr : String

namespace Shell

def banner : String := "Shell ~ Virtis v1.1.0\n"

def prompt : String := "> "

inductive Reply where
  | skipped
  | ended
  | unreadable
  | rejected (e : Error)
  | answered (p : Program) (a : Session.Answer)

def reply (s : Session) : Option String → Reply
  | none => .unreadable
  | some line =>
    let input := Text.trim line
    if input = "" then .skipped
    else if input = "exit" then .ended
    else
      match parse input with
      | .error e => .rejected e
      | .ok p => .answered p (s.evaluate p .suppressed)

namespace Reply

def out : Reply → String
  | answered p a =>
    "\nTree:\n" ++ p.outline.pretty 0 ++ "\n\n" ++
      match a.result with
      | .ok v => "Result: " ++ v.display ++ "\n\n-----\n\n"
      | .error _ => ""
  | _ => ""

def err : Reply → String
  | unreadable => "IO error: stream did not contain valid UTF-8\n"
  | rejected e => e.message ++ "\n"
  | answered _ a =>
    match a.result with
    | .ok _ => ""
    | .error e => e.message ++ "\n"
  | _ => ""

def ends : Reply → Bool
  | ended | unreadable => true
  | _ => false

def session (s : Session) : Reply → Session
  | answered _ a => a.session
  | _ => s

def exit : Reply → Nat
  | unreadable => 1
  | _ => 0

end Reply

def step (s : Session) (line : Option String) : Reply × Option Session :=
  let r := reply s line
  (r, if r.ends then none else some (r.session s))

def replies (s : Session) : List (Option String) → List Reply
  | [] => []
  | line :: lines =>
    match step s line with
    | (r, none) => [r]
    | (r, some next) => r :: replies next lines

def run (lines : List (Option String)) : Outcome :=
  let rs := replies .start lines
  { exit := (rs.getLast?.map Reply.exit).getD 0
    stdout := banner ++ String.join (rs.map fun r => prompt ++ r.out) ++
      if rs.any Reply.ends then "" else prompt
    stderr := String.join (rs.map Reply.err) }

/-- Cuts input behind its line breaks; `line` holds the bytes of the current line, last first. -/
def splitLines (line : List UInt8) : List UInt8 → List (List UInt8)
  | [] => if line.isEmpty then [] else [line.reverse]
  | b :: bs =>
    if b = 10 then (b :: line).reverse :: splitLines [] bs else splitLines (b :: line) bs

def chomp (line : List UInt8) : List UInt8 :=
  match line.reverse with
  | 10 :: 13 :: bs | 10 :: bs => bs.reverse
  | _ => line

def lineText (line : List UInt8) : Option String :=
  String.fromUTF8? ⟨(chomp line).toArray⟩

def linesOfBytes (input : ByteArray) : List (Option String) :=
  (splitLines [] input.toList).map lineText

end Shell

end Varlet
