import Pipeline.Provider.Basic
import Pipeline.Settings.Basic

/-!
# Arguments of the command line
-/

set_option autoImplicit false
set_option relaxedAutoImplicit false

namespace Pipeline.Cli

/-- How the program is called. -/
def usage : String :=
  "Usage: permute [--config FILE] [--format json|yaml] [PROJECT_DIR] [ENTRY ...]"

/-- Why a run fails. -/
inductive Failure where
  | configWithoutFile
  | formatWithoutValue
  | unknownOption (option : String)
  | settings (fault : SettingsFault)
  | notListed (root : String) (fault : ProviderFault)
  | notCollected (faults : Nat)
  | nothingToBind (root : String)
  | notLoaded (faults : Nat)
  | notBound (failed total : Nat)
deriving DecidableEq, Repr

namespace Failure

/-- The failure in words. -/
def text : Failure → String
  | configWithoutFile => "--config needs a file"
  | formatWithoutValue => "--format needs a value"
  | unknownOption option => "unknown option '" ++ option ++ "'\n" ++ usage
  | settings fault => fault.text
  | notListed root _ => "cannot list documents under " ++ root
  | notCollected faults => Text.natText faults ++ " document(s) could not be collected"
  | nothingToBind root => "no process documents to bind under " ++ root
  | notLoaded faults => "declarations failed to load with " ++ Text.natText faults ++ " error(s)"
  | notBound failed total =>
    Text.natText failed ++ " of " ++ Text.natText total ++ " document(s) failed to bind"

/-- The causes of a failure, the nearest one first. -/
def causes : Failure → List String
  | settings (.unreadable _ fault) => [fault.text]
  | settings (.malformed _) => [SettingsFault.malformedReason]
  | notListed _ (.unreadable path fault) => [(ProviderFault.unreadable path fault).text, fault.text]
  | notListed _ (.malformed origin fault) => [(ProviderFault.malformed origin fault).text, fault.text]
  | notListed _ fault => [fault.text]
  | _ => []

/-- Causes with their numbers, from one number on. -/
def numbered : Nat → List String → String
  | _, [] => ""
  | n, cause :: rest => "    " ++ Text.natText n ++ ": " ++ cause ++ "\n" ++ numbered (n + 1) rest

/-- What a failure leaves behind: its text and its causes, numbered if there are several. -/
def report (f : Failure) : String :=
  "Error: " ++ f.text ++ "\n" ++
    match f.causes with
    | [] => ""
    | [cause] => "\nCaused by:\n    " ++ cause ++ "\n"
    | causes => "\nCaused by:\n" ++ numbered 0 causes

end Failure

/-- Arguments; what is not given is left to the settings. -/
structure Args where
  config : Option String := none
  format : Option OutputFormat := none
  /-- The directory of the project. -/
  directory : Option String := none
  /-- The modules to bind. -/
  entries : List String := []
deriving DecidableEq, Repr

/-- What reading arguments comes to. -/
inductive Parsed where
  | args (args : Args)
  | help
  | failure (failure : Failure)
deriving Repr

namespace Args

/-- Reads arguments from left to right, up to a call for help or a fault. -/
def parseFrom (args : Args) : List String → Parsed
  | [] => .args args
  | "--config" :: [] => .failure .configWithoutFile
  | "--config" :: file :: rest => parseFrom { args with config := some file } rest
  | "--format" :: [] => .failure .formatWithoutValue
  | "--format" :: word :: rest =>
    match OutputFormat.ofText word with
    | .ok format => parseFrom { args with format := some format } rest
    | .error fault => .failure (.settings fault)
  | arg :: rest =>
    if arg = "-h" || arg = "--help" then .help
    else if Text.startsWith "--" arg then .failure (.unknownOption arg)
    else if args.directory.isNone then parseFrom { args with directory := some arg } rest
    else parseFrom { args with entries := args.entries ++ [arg] } rest

/-- Reads arguments. -/
def parse (written : List String) : Parsed := parseFrom {} written

/-- The directory that the settings are looked for in. -/
def base (args : Args) : String := args.directory.getD "."

/-- The path of the settings. -/
def settingsPath (args : Args) : String :=
  args.config.getD (FilePath.join args.base "permute.toml")

end Args
end Pipeline.Cli
