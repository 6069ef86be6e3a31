import PatternPlan.Document.Reader
import PatternPlan.Editor.Position

/-!
# Messages of an editor

* `Envelope` — what every message has: a method, and an id if an answer is wanted;
* `InitializeParams`, `HoverParams`, … — what a message says: keys that are missing leave an empty
  value, keys that are unknown are skipped;
* `Json.plain?` — an id as it is sent back: numbers as doubles, keys in order and without
  repetitions.
-/

namespace PatternPlan

/-! ### Ids -/

/-- The fields of an object in order of their keys, the last value given for each. -/
def Json.orderedFields (fields : List (String × Json)) : List (String × Json) :=
  let keys := ((fields.map (·.1)).eraseDups).mergeSort fun a b => a ≤ b
  keys.filterMap fun k => (fields.reverse.find? fun f => f.1 = k).map fun f => (k, f.2)

mutual

/-- A value with its numbers as doubles and its objects ordered; `none` if a number is too large. -/
def Json.plain? : Json → Option Json
  | .number n => (Json.doubleOfNumeral? n).map Json.double
  | .array items => (plainItems? items).map .array
  | .object fields => (plainFields? fields).map fun fs => .object (Json.orderedFields fs)
  | j => some j

def Json.plainItems? : List Json → Option (List Json)
  | [] => some []
  | v :: vs => do
    let v ← Json.plain? v
    let vs ← Json.plainItems? vs
    some (v :: vs)

def Json.plainFields? : List (String × Json) → Option (List (String × Json))
  | [] => some []
  | (k, v) :: fs => do
    let v ← Json.plain? v
    let fs ← Json.plainFields? fs
    some ((k, v) :: fs)

end

namespace Editor

open Reader

/-- What every message has. -/
structure Envelope where
  version : String := ""
  id : Option Json := none
  method : String := ""

/-- An id; `null` is none. -/
def anyId : (id : Option Json) → Reader (Option Json)
  | id, [] => some id
  | _, .null :: js => anyId none js
  | _, j :: js => (Json.plain? j).bind fun v => anyId (some v) js

/-- Reads what every message has. -/
def Envelope.reader : Reader Envelope :=
  record false ["jsonrpc", "id", "method"] fun values => do
    let version ← text (values "jsonrpc")
    let id ← anyId none (values "id")
    let method ← text (values "method")
    return { version, id, method }

/-- Reads what every message has. -/
def Envelope.ofJson? (j : Json) : Option Envelope := Envelope.reader [j]

/-- What a message says, read by `r` from the parameters before the first that are `null`; those
behind only have to be plain values. -/
def paramsBefore? {α : Type} (r : Reader α) : (before : List Json) → Reader α
  | before, [] => r before
  | before, .null :: js => (js.mapM Json.plain?).bind fun _ => r before
  | before, j :: js => paramsBefore? r (before ++ [j]) js

/-- Reads what a message says, with `r` for its parameters. -/
def params? {α : Type} (r : Reader α) (j : Json) : Option α :=
  record false ["params"] (fun values => paramsBefore? r [] (values "params")) [j]

/-- The root of a workspace, named in one of two ways. -/
structure InitializeParams where
  process : Option Int := none
  rootUri : Option String := none
  rootPath : Option String := none

def InitializeParams.reader : Reader InitializeParams :=
  record false ["processId", "rootUri", "rootPath"] fun values => do
    let process ← option int (values "processId")
    let rootUri ← option text (values "rootUri")
    let rootPath ← option text (values "rootPath")
    return { process, rootUri, rootPath }

/-- A document as a message names it or brings it. -/
structure DocumentItem where
  uri : String := ""
  language : String := ""
  version : Int := 0
  text : String := ""

/-- The name of a document. -/
def DocumentItem.nameReader : Reader DocumentItem :=
  record false ["uri"] fun values => do
    let uri ← Reader.text (values "uri")
    return { uri }

/-- The name and the version of a document. -/
def DocumentItem.versionReader : Reader DocumentItem :=
  record false ["uri", "version"] fun values => do
    let uri ← Reader.text (values "uri")
    let version ← int (values "version")
    return { uri, version }

/-- A whole document. -/
def DocumentItem.reader : Reader DocumentItem :=
  record false ["uri", "languageId", "version", "text"] fun values => do
    let uri ← Reader.text (values "uri")
    let language ← Reader.text (values "languageId")
    let version ← int (values "version")
    let text ← Reader.text (values "text")
    return { uri, language, version, text }

/-- A document that is opened. -/
def openedReader : Reader DocumentItem :=
  record false ["textDocument"] fun values => DocumentItem.reader (values "textDocument")

/-- A document that is named. -/
def namedReader : Reader DocumentItem :=
  record false ["textDocument"] fun values => DocumentItem.nameReader (values "textDocument")

/-- The new contents of a document; the last one holds. -/
structure ChangeParams where
  document : DocumentItem := {}
  contents : List String := []

def ChangeParams.reader : Reader ChangeParams :=
  record false ["textDocument", "contentChanges"] fun values => do
    let document ← DocumentItem.versionReader (values "textDocument")
    let contents ← list (record false ["text"] fun values => text (values "text"))
      (values "contentChanges")
    return { document, contents }

/-- A place in a document. -/
structure HoverParams where
  document : DocumentItem := {}
  position : Position := {}

def HoverParams.reader : Reader HoverParams :=
  record false ["textDocument", "position"] fun values => do
    let document ← DocumentItem.nameReader (values "textDocument")
    let position ← record false ["line", "character"] (fun values => do
      let line ← int (values "line")
      let character ← int (values "character")
      return { line, character }) (values "position")
    return { document, position }

end Editor

end PatternPlan
