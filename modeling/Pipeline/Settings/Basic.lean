import Pipeline.File.Basic
import Pipeline.Toml.Reader

/-!
# Settings of a project
-/

set_option autoImplicit false
set_option relaxedAutoImplicit false

namespace Pipeline

/-- How events are written. -/
inductive LogFormat where
  | text
  | json
deriving DecidableEq, Repr

/-- The word for a format of events. -/
def LogFormat.word : LogFormat → String
  | text => "text"
  | json => "json"

/-- How plans are written. -/
inductive OutputFormat where
  | json
  | yaml
deriving DecidableEq, Repr

/-- The word for a format of plans. -/
def OutputFormat.word : OutputFormat → String
  | json => "json"
  | yaml => "yaml"

/-- Why settings cannot be used. -/
inductive SettingsFault where
  | unreadable (path : String) (fault : FileFault)
  | malformed (path : String)
  | depthOutOfRange (depth : Nat)
  | unknownFormat (word : String)
deriving DecidableEq, Repr

/-- The limit for nested obligations, calls and aliases, unless another one is set. -/
def defaultMaxDepth : Nat := 32

/-- The least limit that may be set. -/
def minMaxDepth : Nat := 4

/-- The greatest limit that may be set. -/
def maxMaxDepth : Nat := 1024

/-- What is said about settings that cannot be read. -/
def SettingsFault.malformedReason : String := "invalid settings"

/-- An unfit setting, in words. -/
def invalidSetting (key reason : String) : String := "invalid setting '" ++ key ++ "': " ++ reason

/-- The fault in words. -/
def SettingsFault.text : SettingsFault → String
  | unreadable path fault => "cannot read " ++ path ++ ": " ++ fault.text
  | malformed path => "cannot parse " ++ path ++ ": " ++ malformedReason
  | depthOutOfRange depth =>
    invalidSetting "resolver.max_depth" (Text.natText depth ++ " is outside " ++
      Text.natText minMaxDepth ++ "..=" ++ Text.natText maxMaxDepth)
  | unknownFormat word =>
    invalidSetting "output.format" ("unknown format '" ++ word ++ "', expected json or yaml")

/-- A text with the ASCII letters in lower case. -/
def lowerAscii (s : String) : String := String.ofList (s.toList.map Char.toLower)

/-- The format of plans that a word stands for, in letters of either case. -/
def OutputFormat.ofText (word : String) : Except SettingsFault OutputFormat :=
  match lowerAscii word with
  | "json" => .ok .json
  | "yaml" => .ok .yaml
  | "yml" => .ok .yaml
  | other => .error (.unknownFormat other)

/-- The settings of a project. -/
structure Settings where
  /-- The directory of the documents, seen from the settings. -/
  root : String := "."
  /-- The modules to bind; none stands for all main documents. -/
  entries : List String := []
  logLevel : String := "info"
  logFormat : LogFormat := .text
  format : OutputFormat := .json
  /-- True when JSON is spread over lines. -/
  pretty : Bool := true
  maxDepth : Nat := defaultMaxDepth
deriving DecidableEq, Repr

end Pipeline

/-! ### Reading settings

Settings are TOML tables, one for each section. A section may also be an array, which gives the
values of its first keys in order. What is not given has a default value; keys that no section
knows are refused.
-/

namespace Pipeline.Settings

/-- The values that a section gives to its keys. -/
def section? (keys : List String) : Toml → Option Toml.Entries
  | .table _ es => if es.all fun e => keys.contains e.1 then some es else none
  | .array items => some (keys.zip items)
  | .tables items => some (keys.zip items)
  | _ => none

/-- The value of a key, or the default value; none when the value cannot be read. -/
def get? {α : Type} (es : Toml.Entries) (key : String) (default : α) (read : Toml → Option α) :
    Option α :=
  match es.get? key with
  | none => some default
  | some v => read v

/-- A text. -/
def string? : Toml → Option String
  | .str s => some s
  | _ => none

/-- A truth value. -/
def bool? : Toml → Option Bool
  | .bool b => some b
  | _ => none

/-- An integer that is not negative. -/
def nat? : Toml → Option Nat
  | .int (.ofNat n) => some n
  | _ => none

/-- A list of texts. -/
def strings? : Toml → Option (List String)
  | .array items => items.mapM string?
  | _ => none

/-- True for collections without anything in them. -/
def isEmpty : Toml → Bool
  | .array items => items.isEmpty
  | .tables items => items.isEmpty
  | .table _ es => es.isEmpty
  | _ => false

/-- What a word stands for; the word may be the only key of a table, over nothing. -/
def choice? {α : Type} (choices : List (String × α)) : Toml → Option α
  | .str s => choices.lookup s
  | .table _ [(key, v)] => if isEmpty v then choices.lookup key else none
  | _ => none

/-- Reads the section of the project. -/
def readProject (es : Toml.Entries) (s : Settings) : Option Settings := do
  return { s with
    root := ← get? es "root" s.root string?
    entries := ← get? es "entries" s.entries strings? }

/-- Reads the section of events. -/
def readLogging (es : Toml.Entries) (s : Settings) : Option Settings := do
  return { s with
    logLevel := ← get? es "level" s.logLevel string?
    logFormat := ← get? es "format" s.logFormat (choice? [("text", .text), ("json", .json)]) }

/-- Reads the section of output. -/
def readOutput (es : Toml.Entries) (s : Settings) : Option Settings := do
  return { s with
    format := ← get? es "format" s.format (choice? [("json", .json), ("yaml", .yaml)])
    pretty := ← get? es "pretty" s.pretty bool? }

/-- Reads the section of the resolver. -/
def readResolver (es : Toml.Entries) (s : Settings) : Option Settings := do
  return { s with maxDepth := ← get? es "max_depth" s.maxDepth nat? }

/-- Reads a section under its name, if it is there. -/
def readSection (all : Toml.Entries) (name : String) (keys : List String)
    (read : Toml.Entries → Settings → Option Settings) (s : Settings) : Option Settings :=
  match all.get? name with
  | none => some s
  | some v => do read (← section? keys v) s

/-- Reads settings from the table of all sections. -/
def ofToml? (t : Toml) : Option Settings := do
  let all ← section? ["project", "logging", "output", "resolver"] t
  let s ← readSection all "project" ["root", "entries"] readProject {}
  let s ← readSection all "logging" ["level", "format"] readLogging s
  let s ← readSection all "output" ["format", "pretty"] readOutput s
  readSection all "resolver" ["max_depth"] readResolver s

/-- Reads the settings at a path from their text. -/
def parse (path text : String) : Except SettingsFault Settings :=
  match (Toml.parse? text).bind ofToml? with
  | none => .error (.malformed path)
  | some s =>
    if minMaxDepth ≤ s.maxDepth ∧ s.maxDepth ≤ maxMaxDepth then .ok s
    else .error (.depthOutOfRange s.maxDepth)

/-- Loads the settings at a path. -/
def load (files : Files) (path : String) : Except SettingsFault Settings :=
  match files.text path with
  | .error fault => .error (.unreadable path fault)
  | .ok text => parse path text

end Pipeline.Settings
