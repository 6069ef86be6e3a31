import PatternPlan.Text.Quoted

/-!
# Flags

Arguments of the form `-name`, `-name=value` or `-name value`, with one dash or two, stand before
all others; `--` ends them.

* `FlagSpec` — a flag: its name, whether it takes a value, and what it is for;
* `FlagValues` — the values given, the latest first;
* `parseFlags` — the flags at the front of arguments, and the arguments that follow;
* `flagUsage` — the flags of a command, for the reader.
-/

namespace PatternPlan

namespace Cli

/-- Whether a flag takes a value or is switched on and off. -/
inductive FlagKind where
  | value
  | switch
deriving DecidableEq

/-- A flag. -/
structure FlagSpec where
  name : String
  kind : FlagKind
  purpose : String

/-- Why arguments are refused. -/
inductive FlagError where
  | help
  | badForm (arg : String)
  | unknown (name : String)
  | badSwitch (name value : String)
  | missing (name : String)

def FlagError.message : FlagError → String
  | help => "flag: help requested"
  | badForm arg => "bad flag syntax: " ++ arg
  | unknown name => "flag provided but not defined: -" ++ name
  | badSwitch name value => "invalid boolean value " ++ quoted value ++ " for -" ++ name ++ ": parse error"
  | missing name => "flag needs an argument: -" ++ name

/-- The form of an argument. -/
inductive ArgForm where
  | operand
  | terminator
  | malformed
  | flag (name : String) (value : Option String)

/-- A name with an optional value after `=`. -/
def ArgForm.ofBody (cs : List Char) : ArgForm :=
  match cs with
  | [] => .malformed
  | c :: rest =>
    if c = '-' || c = '=' then .malformed
    else
      let name := String.ofList (c :: rest.takeWhile (· ≠ '='))
      match rest.dropWhile (· ≠ '=') with
      | [] => .flag name none
      | _ :: value => .flag name (some (String.ofList value))

/-- The form of an argument: a lone dash is none of a flag. -/
def ArgForm.of (arg : String) : ArgForm :=
  match arg.toList with
  | '-' :: '-' :: [] => .terminator
  | '-' :: '-' :: body => .ofBody body
  | '-' :: c :: rest => .ofBody (c :: rest)
  | _ => .operand

/-- The truth value of a word. -/
def switchValue? (s : String) : Option Bool :=
  if s ∈ ["1", "t", "T", "TRUE", "true", "True"] then some true
  else if s ∈ ["0", "f", "F", "FALSE", "false", "False"] then some false
  else none

/-- The values given to flags, the latest first. -/
structure FlagValues where
  given : List (String × String) := []

namespace FlagValues

/-- Gives a flag a value. -/
def set (v : FlagValues) (name value : String) : FlagValues := ⟨(name, value) :: v.given⟩

/-- The value of a flag; empty if it has none. -/
def text (v : FlagValues) (name : String) : String := (v.given.lookup name).getD ""

/-- Whether a flag is switched on. -/
def isOn (v : FlagValues) (name : String) : Bool := switchValue? (v.text name) = some true

end FlagValues

/-- The flags at the front of arguments, and the arguments that follow. -/
def parseFlags (specs : List FlagSpec) :
    FlagValues → List String → Except FlagError (FlagValues × List String)
  | v, [] => .ok (v, [])
  | v, arg :: rest =>
    match ArgForm.of arg with
    | .operand => .ok (v, arg :: rest)
    | .terminator => .ok (v, rest)
    | .malformed => .error (.badForm arg)
    | .flag name value =>
      match specs.find? fun s => s.name = name with
      | none => .error (if name = "help" || name = "h" then .help else .unknown name)
      | some spec =>
        match spec.kind, value with
        | .switch, none => parseFlags specs (v.set name "true") rest
        | .switch, some s =>
          if (switchValue? s).isSome then parseFlags specs (v.set name s) rest
          else .error (.badSwitch name s)
        | .value, some s => parseFlags specs (v.set name s) rest
        | .value, none =>
          match rest with
          | [] => .error (.missing name)
          | s :: rest => parseFlags specs (v.set name s) rest

/-- A flag for the reader: a switch of one letter has its purpose on the same line. -/
def FlagSpec.usage (s : FlagSpec) : String :=
  let head := "  -" ++ s.name ++ if s.kind = .value then " string" else ""
  head ++ (if head.length ≤ 4 then "\t" else "\n    \t") ++ s.purpose ++ "\n"

/-- The flags of a command by name. -/
def flagUsage (command : String) (specs : List FlagSpec) : String :=
  "Usage of " ++ command ++ ":\n"
    ++ String.join ((specs.mergeSort fun a b => a.name ≤ b.name).map FlagSpec.usage)

end Cli

end PatternPlan
