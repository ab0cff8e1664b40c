import Pipeline.Cli.Args
import Pipeline.Plan.Bind
import Pipeline.Provider.Collect
import Pipeline.Provider.Directory
import Pipeline.Settings.Basic
import Pipeline.Store.Load
import Pipeline.Yaml.Writer

/-!
# Runs of the program

A run reads the settings, collects the documents of a project, loads them and binds its main
documents. It writes the plans of those that can be bound and reports all faults.
-/

set_option autoImplicit false
set_option relaxedAutoImplicit false

namespace Pipeline.Cli

/-- What a run leaves behind. -/
structure Outcome where
  code : Nat
  stdout : String
  stderr : String
deriving DecidableEq, Repr

/-- A project: its settings and the directory of its documents. -/
structure Project where
  settings : Settings
  root : String
deriving Repr

/-- The settings that apply, and the directory from which they are seen. Without a path given they
need not be there. -/
def Args.settings (args : Args) (files : Files) : Except Failure (Settings × String) :=
  if args.config.isNone && !files.holds args.settingsPath then .ok ({}, args.base)
  else
    match Settings.load files args.settingsPath with
    | .ok s => .ok (s, (FilePath.parent? args.settingsPath).getD ".")
    | .error fault => .error (.settings fault)

/-- The project that arguments mean. A directory given together with settings goes before the one
that the settings name. -/
def Args.project (args : Args) (files : Files) : Except Failure Project := do
  let (settings, seenFrom) ← args.settings files
  let root := match args.directory, args.config with
    | some directory, some _ => directory
    | _, _ => FilePath.join seenFrom settings.root
  return ⟨settings, root⟩

/-- The modules asked for, if there are any. -/
def entriesOf (args : Args) (settings : Settings) : List String :=
  if args.entries.isEmpty then settings.entries else args.entries

/-- Plans as text. -/
def render (format : OutputFormat) (pretty : Bool) (plans : List Plan) : String :=
  let data := Datum.list (plans.map Plan.toDatum)
  match format, pretty with
  | .json, true => data.toJson.pretty 0
  | .json, false => data.toJson.compact
  | .yaml, _ => Yaml.write data

/-- Diagnostics, each on a line. -/
def reportAll (faults : List Diagnostic) : String :=
  String.join (faults.map fun d => "error: " ++ d.text ++ "\n")

/-- The end of a run that has nothing to write. -/
def fail (failure : Failure) (faults : List Diagnostic) : Outcome :=
  ⟨1, "", reportAll faults ++ failure.report⟩

/-- The end of a run that has bound documents. -/
def finish (format : OutputFormat) (pretty : Bool) (bound : List Store.BoundDocument) : Outcome :=
  let plans := bound.filterMap fun b => b.result.toOption
  let failed := bound.filterMap fun b =>
    match b.result with
    | .ok _ => none
    | .error faults => some faults
  let stdout := render format pretty plans ++ "\n"
  if failed.isEmpty then ⟨0, stdout, ""⟩
  else
    ⟨1, stdout, reportAll failed.flatten ++ (Failure.notBound failed.length bound.length).report⟩

/-- Binds the main documents of a project. -/
def bindProject (args : Args) (files : Files) (project : Project) : Outcome :=
  let provider := Provider.ofDirectory files project.root
  let asked := entriesOf args project.settings
  match if asked.isEmpty then provider.modules else .ok asked with
  | .error fault => fail (.notListed project.root fault) []
  | .ok entries =>
    match (provider.collect entries).value with
    | .error faults => fail (.notCollected faults.length) faults
    | .ok documents =>
      let mains := documents.filter fun d =>
        d.kind = .main && (asked.isEmpty || entries.contains d.module)
      if mains.isEmpty then fail (.nothingToBind project.root) []
      else
        match (Store.load documents project.settings.maxDepth).value with
        | .error faults => fail (.notLoaded faults.length) faults
        | .ok store =>
          finish (args.format.getD project.settings.format) project.settings.pretty
            (store.bindAll mains).value

/-- Runs the program on its arguments. -/
def run (files : Files) (written : List String) : Outcome :=
  match Args.parse written with
  | .help => ⟨0, usage ++ "\n", ""⟩
  | .failure failure => fail failure []
  | .args args =>
    match args.project files with
    | .error failure => fail failure []
    | .ok project => bindProject args files project

end Pipeline.Cli
