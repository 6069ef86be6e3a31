import PatternPlan.Diagnostic.Basic

/-!
# Configuration

* `Config` — what a project may set, with the values that hold when it sets nothing;
* `Config.isSource` — whether a path has one of the extensions of source files.
-/

namespace PatternPlan

/-- The settings of a project.  The number of workers is `none` when the machine decides. -/
structure Config where
  sourceExtensions : List String := [".mc", ".match"]
  inlineOwner : String := "<inline match>"
  unknownType : String := "unknown"
  warnLegacyIf : Bool := true
  policy : Policy := {}
  store : String := ""
  listen : String := "127.0.0.1:7455"
  workers : Option Nat := none
deriving Inhabited

/-- The extension of a path: from the last dot of its last component on; empty without a dot. -/
def pathExtension (path : String) : String :=
  let last := path.toList.reverse.takeWhile (· ≠ '/')
  if last.contains '.' then String.ofList ('.' :: (last.takeWhile (· ≠ '.')).reverse) else ""

namespace Config

/-- The name of the setting for guards introduced with `if`. -/
def legacyIfName (c : Config) : String := if c.warnLegacyIf then "warn" else "allow"

/-- Whether a path names a source file. -/
def isSource (c : Config) (path : String) : Bool := pathExtension path ∈ c.sourceExtensions

end Config

end PatternPlan
