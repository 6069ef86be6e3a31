import PatternPlan.Config.Document
import PatternPlan.Files.Tree

/-!
# Finding a configuration

* `Config.find?` — the nearest configuration file in a directory or above it;
* `Config.load` — the configuration of a file;
* `Config.resolve` — the configuration at a path, or else the nearest one, or else the defaults.
-/

namespace PatternPlan

/-- Why there is no configuration. -/
inductive ConfigLoadError where
  | unreadable (path : String) (e : PathError)
  | invalid (path : String) (e : ConfigError)

def ConfigLoadError.message : ConfigLoadError → String
  | unreadable path e => "reading config " ++ path ++ ": " ++ e.message
  | invalid path e => e.located path

namespace Config

/-- The names a configuration file can have. -/
def fileNames : List String := ["matchc.yaml", "matchc.yml"]

/-- The first configuration file in one of some directories. -/
def findIn? (t : FileTree) (directories : List Path) : Option Path :=
  (directories.flatMap fun d => fileNames.map fun n => d ++ [n]).find? fun p => (t.node? p).isSome

/-- A directory and those above it. -/
def upward (p : Path) : List Path := (FileTree.beginnings p).reverse ++ [[]]

/-- The nearest configuration file in a directory or above it. -/
def find? (t : FileTree) (directory : String) : Option Path :=
  findIn? t (upward (absolutePath t.current directory))

/-- The configuration of a file. -/
def load (t : FileTree) (path : String) : Except ConfigLoadError Config :=
  match t.read path with
  | .error e => .error (.unreadable path e)
  | .ok text =>
    match Config.ofText text.shown with
    | .ok c => .ok c
    | .error e => .error (.invalid path e)

/-- The configuration at a path; an empty path asks for the nearest one. -/
def resolve (t : FileTree) (path directory : String) : Except ConfigLoadError Config :=
  if path ≠ "" then load t path
  else match find? t directory with
    | none => .ok {}
    | some p => load t p.text

end Config

end PatternPlan
