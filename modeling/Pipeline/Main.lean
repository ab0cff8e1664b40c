import Pipeline.Cli.Run

/-!
# The command line

The program looks at the files it may need, and everything else is decided from what it saw.
-/

set_option autoImplicit false
set_option relaxedAutoImplicit false

namespace Pipeline.Main

/-- What stands at the paths that were looked at. -/
abbrev Seen := List (String × Except FileFault Entry)

/-- The file system as far as it was looked at. -/
def filesOf (seen : Seen) : Files := fun path => (seen.lookup path).getD (.error .missing)

/-- The fault that an error of the operating system is. -/
def faultOf : IO.Error → FileFault
  | .noFileOrDirectory _ _ _ => .missing
  | error => .other (toString error)

/-- The text of a file. -/
def readText (path : String) : IO (Except FileFault String) := do
  match ← (IO.FS.readBinFile path).toBaseIO with
  | .error error => return .error (faultOf error)
  | .ok bytes =>
    match String.fromUTF8? bytes with
    | some text => return .ok text
    | none => return .error .notText

/-- Looks at a path and at everything below it. Of the files only those are read that `isRead`
asks for. -/
partial def look (isRead : String → Bool) (path : String) : IO Seen := do
  match ← (IO.FS.realPath path).toBaseIO with
  | .error error => return [(path, .error (faultOf error))]
  | .ok real =>
    let place := (FilePath.pieces real.toString).filter (· ≠ "")
    if ← real.isDir then
      match ← real.readDir.toBaseIO with
      | .error error => return [(path, .error (faultOf error))]
      | .ok entries =>
        let names := entries.toList.map (·.fileName)
        let below ← names.mapM fun name => look isRead (FilePath.join path name)
        return (path, .ok (.directory place names)) :: below.flatten
    else
      let content ← if isRead path then readText path else pure (.error .notText)
      return [(path, .ok (.file place content))]

/-- Looks at the files that arguments may lead to. -/
def survey (written : List String) : IO Seen := do
  match Cli.Args.parse written with
  | .args args =>
    let settings ← look (· = args.settingsPath) args.settingsPath
    match args.project (filesOf settings) with
    | .ok project => return settings ++ (← look Directory.isDocument project.root)
    | .error _ => return settings
  | _ => return []

end Pipeline.Main

/-- Runs the program. -/
def main (args : List String) : IO UInt32 := do
  let outcome := Pipeline.Cli.run (Pipeline.Main.filesOf (← Pipeline.Main.survey args)) args
  IO.print outcome.stdout
  IO.eprint outcome.stderr
  return UInt32.ofNat outcome.code
