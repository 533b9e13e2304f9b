import SchemaCodegen.Config.Engine
import SchemaCodegen.Config.Environment
import SchemaCodegen.Json.Writer
import SchemaCodegen.Text.Search
import SchemaCodegen.Traced

/-!
# Configuration files

There is a global configuration for a user, and a project may have one of its own.  The
effective configuration is laid together from the defaults, the global file, the project's
file, the environment, and what a caller asks for, each over the ones before it
(`resolvedEntries`), and checked as a whole at the end.

The files are given as texts: `ConfigFiles` is what stands in the two places, and saving
gives the files that stand there afterwards.  Where the places are depends on the host
(`Host.configDirectory`).
-/

namespace SchemaCodegen

/-! ### Places -/

/-- The system that a program runs on: its name, the user's directory, the directory that
the program works in, and the variables. -/
structure Host where
  platform : String
  home : String
  workDirectory : String
  environment : Environment

/-- The parts of a path, without empty ones and those that stay in place. -/
def pathParts (path : String) : List String :=
  ((Text.partsAt '/' path.toList).map String.ofList).filter fun part => part != "" && part != "."

/-- The slashes at the front of a path that count: one, or exactly two. -/
def pathRoot (path : String) : String :=
  match path.toList.takeWhile (· == '/') with
  | [] => ""
  | ['/', '/'] => "//"
  | _ => "/"

/-- A path with a name below it. -/
def pathBelow (path name : String) : String :=
  pathRoot path ++ "/".intercalate (pathParts path ++ [name])

/-- The platform keeps configurations below a directory of their own. -/
def Host.hasConfigHome (h : Host) : Bool :=
  h.platform == "Linux" || "BSD".toList.isSuffixOf h.platform.toList

/-- The directory of the global configuration: below the one that a variable names, or below
`.config`; on other platforms a hidden one in the user's directory. -/
def Host.configDirectory (h : Host) (app : Application) : String :=
  if h.hasConfigHome then
    match (h.environment.lookup "XDG_CONFIG_HOME").filter (!·.isEmpty) with
    | some base => pathBelow base app.name
    | none => pathBelow (pathBelow h.home ".config") app.name
  else pathBelow h.home ("." ++ app.name)

/-- The name of the file with the global configuration. -/
def globalFileName : String := "config.json"

/-- The path of the global configuration. -/
def Host.globalPath (h : Host) (app : Application) : String :=
  pathBelow (h.configDirectory app) globalFileName

/-- The path of the project's configuration. -/
def Host.projectPath (h : Host) (app : Application) : String :=
  pathBelow h.workDirectory (app.name ++ ".json")

/-! ### Reading -/

/-- The texts of the files that exist. -/
structure ConfigFiles where
  global? : Option String := none
  project? : Option String := none
deriving DecidableEq, Repr

/-- The entries of a file. -/
def fileEntries (label path text : String) : Except Failure Entries :=
  let text := String.ofList (Text.unifyNewlines text.toList)
  match Json.read text with
  | .ok (.object es) => .ok es
  | .ok _ => .error (.config (.fileNotObject label path))
  | .error fault =>
    if fault.problem = .tooManyDigits then .error .unreadable
    else .error (.config (.badFile label path text fault))

/-- The global configuration; the defaults without a file. -/
def loadGlobal (app : Application) (h : Host) (files : ConfigFiles) :
    Except Failure EngineConfig := do
  match files.global? with
  | none => pure {}
  | some text =>
    let label := "global config"
    let path := h.globalPath app
    match EngineConfig.ofEntries {} (← fileEntries label path text) with
    | .valid c => pure c
    | .faulty faults => throw (.config (.fileRecord label path faults))

/-- The entries of the project's configuration, if it has one. -/
def loadProject (app : Application) (h : Host) (files : ConfigFiles) :
    Except Failure (Option Entries) :=
  match files.project? with
  | none => .ok none
  | some text => some <$> fileEntries "project config" (h.projectPath app) text

/-! ### Resolving -/

/-- The entries laid together, before they are checked: the global configuration with its
defaults, the project's, the environment's and the caller's. -/
def resolvedEntries (global : EngineConfig) (project environment overrides : Entries) : Entries :=
  mergeLayers [global.entries, project, environment, overrides]

/-- The layer that a caller asks for; what counts as nothing asks for nothing. -/
def overridesLayer (g : Anchors) (overrides : Value) : Except Failure Entries :=
  if g.isNothing overrides then .ok []
  else match g.unshare overrides with
    | .object es => .ok es
    | _ => .error .notObject

/-- The effective configuration.  A given environment stands in for the host's. -/
def resolveConfig (app : Application) (h : Host) (files : ConfigFiles)
    (environment : Option Environment) (g : Anchors) (overrides : Value) :
    Traced EngineConfig := do
  let global ← Traced.ofExcept (loadGlobal app h files)
  let project ← Traced.ofExcept (loadProject app h files)
  if project.isSome then Traced.note (.projectApplied h.workDirectory)
  let given ← Traced.ofExcept (environmentLayer app (environment.getD h.environment))
  let asked ← Traced.ofExcept (overridesLayer g overrides)
  match EngineConfig.ofEntries {} (resolvedEntries global (project.getD []) given asked) with
  | .valid c => pure c
  | .faulty faults => Traced.fail (.config (.record faults))

/-! ### Saving -/

mutual

/-- Data in which numbers that are not finite are `null`. -/
def Value.finite : Value → Value
  | .float x => if x.isFinite then .float x else .null
  | .list xs => .list (Value.allFinite xs)
  | .object es => .object (Value.entriesFinite es)
  | v => v

/-- The items of a list, without numbers that are not finite. -/
def Value.allFinite : List Value → List Value
  | [] => []
  | v :: rest => v.finite :: allFinite rest

/-- The entries of an object, without numbers that are not finite. -/
def Value.entriesFinite : List (Scalar × Value) → List (Scalar × Value)
  | [] => []
  | (k, v) :: rest => (k, v.finite) :: entriesFinite rest

end

/-- The text in which a configuration is saved. -/
def EngineConfig.text (c : EngineConfig) : Except Failure String :=
  match Json.write .saved {} (Value.finite (.object c.entries)) with
  | .ok text => .ok (text ++ "\n")
  | .error _ => .error .wrongKind

/-- The files after a configuration is saved as the global one. -/
def saveGlobal (files : ConfigFiles) (c : EngineConfig) : Except Failure ConfigFiles := do
  pure { files with global? := some (← c.text) }

end SchemaCodegen
