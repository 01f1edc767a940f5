import TreeQuery.Command.Report

/-!
# The command line

Arguments, output and the tree's text; everything else is decided by the library.
-/

namespace TreeQuery.Command

def emit (o : Output) : IO UInt32 := do
  let out ← IO.getStdout
  let err ← IO.getStderr
  for (channel, text) in o.pieces do
    match channel with
    | .out => out.putStr text; out.flush
    | .err => err.putStr text; err.flush
  pure o.code

def openFailure : IO.Error → String
  | .noFileOrDirectory _ code _ => "No such file or directory (os error " ++ toString code ++ ")"
  | .permissionDenied _ code _ => "Permission denied (os error " ++ toString code ++ ")"
  | e => toString e

/-- The tree's text, from a file or, for `-`, from standard input. -/
def readDocument (path : String) : IO Document := do
  if path = "-" then
    let stdin ← IO.getStdin
    match ← stdin.readToEnd.toBaseIO with
    | .ok text => pure (.text text)
    | .error _ => pure .unreadable
  else
    match ← (IO.FS.Handle.mk path .read).toBaseIO with
    | .error e => pure (.unopened (openFailure e))
    | .ok handle =>
      match ← handle.readToEnd.toBaseIO with
      | .ok text => pure (.text text)
      | .error _ => pure .unreadable

end TreeQuery.Command

open TreeQuery.Command

/-- Run the command line. -/
def main (args : List String) : IO UInt32 := do
  match Request.ofArgs args with
  | .error e => IO.eprint e.message; pure 2
  | .ok .summary => IO.print summaryText; pure 0
  | .ok .help => IO.print helpText; pure 0
  | .ok .version => IO.print versionText; pure 0
  | .ok (.run o) =>
    match o.start with
    | .finished output => emit output
    | .search printed path m =>
      let _ ← emit printed
      let document ← readDocument path
      emit (finishRun o path m document)
