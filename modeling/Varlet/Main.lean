import Varlet.Script

namespace Varlet.Main

structure Options where
  file : Option String := none
  showTree : Bool := false

def options? (o : Options) : List String → Option Options
  | [] => some o
  | "-f" :: path :: args | "--file" :: path :: args => options? { o with file := some path } args
  | "--tree" :: args => options? { o with showTree := true } args
  | "-v" :: args | "--verbose" :: args => options? o args
  | _ => none

def readSource (path : String) : IO (Except Script.ReadError String) := do
  try
    return Script.decode (← IO.FS.readBinFile path)
  catch e =>
    match e with
    | .noFileOrDirectory .. => return .error .notFound
    | _ => return .error (.failed (toString e))

def runScript (path : String) (showTree : Bool) : IO UInt32 := do
  let outcome := Script.run path showTree (← readSource path)
  IO.print outcome.stdout
  IO.eprint outcome.stderr
  return outcome.exit.toUInt32

partial def readLine (input : IO.FS.Stream) (line : List UInt8) : IO (List UInt8) := do
  match (← input.read 1).toList with
  | [] => return line.reverse
  | b :: _ => if b = 10 then return (b :: line).reverse else readLine input (b :: line)

partial def interact (input : IO.FS.Stream) (s : Session) : IO UInt32 := do
  IO.print Shell.prompt
  (← IO.getStdout).flush
  let line ← readLine input []
  if line.isEmpty then return 0
  let (r, next) := Shell.step s (Shell.lineText line)
  IO.print r.out
  IO.eprint r.err
  match next with
  | none => return r.exit.toUInt32
  | some s => interact input s

end Varlet.Main

def main (args : List String) : IO UInt32 := do
  match Varlet.Main.options? {} args with
  | none =>
    IO.eprint "usage: varlet [--file FILE] [--tree] [--verbose]\n"
    return 2
  | some { file := some path, showTree } => Varlet.Main.runScript path showTree
  | some { file := none, .. } =>
    IO.print Varlet.Shell.banner
    Varlet.Main.interact (← IO.getStdin) .start
