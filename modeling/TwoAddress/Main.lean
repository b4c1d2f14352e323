/-
# `Main` — the command

Reads the files, calls `Command.run` and writes what it answers: lowered code
and counters to the standard output, the log to the standard error.
-/
import TwoAddress.Command

namespace TwoAddress

def readContents (file : String) : IO Command.Contents := do
  try
    let bytes ← IO.FS.readBinFile file
    match String.fromUTF8? bytes with
    | some text => return .ok text.toList
    | none => return .error "stream did not contain valid UTF-8"
  catch
    | .noFileOrDirectory .. => return .error Error.missingFile.detail
    | e => return .error (toString e)

def readAll (o : Command.Options) : IO Command.Result := do
  let target ←
    match o.target with
    | some file => readContents file
    | none => pure (.ok [])
  return Command.run o target (← readContents o.listing)

end TwoAddress

open TwoAddress in
def main (args : List String) : IO UInt32 := do
  match Command.Options.default.readArgs false args with
  | .error reason =>
      IO.eprintln reason
      IO.eprintln Command.usage
      return 2
  | .ok o =>
      let result ← readAll o
      for (level, text) in result.log o.verbosity do
        IO.eprintln s!"{level.name} {text}"
      IO.print (String.ofList result.printed)
      return if result.success then 0 else 1
