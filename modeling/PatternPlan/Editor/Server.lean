import PatternPlan.Compile.Compilation
import PatternPlan.Editor.Frame
import PatternPlan.Editor.Message
import PatternPlan.Editor.Uri
import PatternPlan.Plan.Printer
import PatternPlan.Surface.Printer

/-!
# The editor server

It keeps the documents an editor has opened, reports what is wrong with them, shows the plan of
the match at a place, and formats.

* `Server` — the open documents, the root of the workspace, and whether an end was announced;
* `Server.handle?` — one message: what is sent, and the server after it;
* `Server.serve?` — a stream of framed messages, up to its end or a message that ends the session.

A message about a document that cannot be typed has no outcome.
-/

namespace PatternPlan

namespace Editor

/-- An open document. -/
structure Document where
  content : String
  compilation : Compilation

/-- The state of the server. -/
structure Server where
  config : Config := {}
  documents : List (String × Document) := []
  root : String := ""
  shutdown : Bool := false

/-- Why a message is not handled. -/
inductive HandleError where
  | malformed
  | unknownDocument (uri : String)

/-- The wording of an error. -/
def HandleError.message : HandleError → String
  | malformed => "malformed message"
  | unknownDocument uri => "document " ++ uri ++ " not found"

/-- What a message leads to. -/
structure Outcome where
  server : Server
  sent : List Json := []
  error : Option HandleError := none
  done : Bool := false

/-! ### Outgoing messages -/

def Position.toJson (p : Position) : Json :=
  .object [("line", .int p.line), ("character", .int p.character)]

def Range.toJson (r : Range) : Json :=
  .object [("start", r.start.toJson), ("end", r.stop.toJson)]

/-- The number of a severity. -/
def severityNumber : Severity → Int
  | .warning => 2
  | .note => 3
  | _ => 1

/-- A diagnostic as an editor shows it, its notes below the message. -/
def diagnosticJson (content : List UInt8) (d : Diagnostic) : Json :=
  .object [("range", (Range.ofSpan content d.span.start d.span.stop).toJson),
    ("severity", .int (severityNumber d.severity)), ("code", .text d.code.name),
    ("message", .text (d.message ++ String.join (d.notes.map ("\nnote: " ++ ·)))),
    ("source", .text "matchc")]

/-- An answer. -/
def reply (id result : Json) : Json :=
  .object [("jsonrpc", .text "2.0"), ("id", id), ("result", result)]

/-- The answer to a method that is not offered. -/
def methodNotFound (id : Json) (method : String) : Json :=
  .object [("jsonrpc", .text "2.0"), ("id", id), ("result", .null),
    ("error", .object [("code", .int (-32601)), ("message", .text ("Method not found: " ++ method))])]

/-- The diagnostics of a document. -/
def publish (uri : String) (diagnostics : List Json) : Json :=
  .object [("jsonrpc", .text "2.0"), ("method", .text "textDocument/publishDiagnostics"),
    ("params", .object [("uri", .text uri), ("diagnostics", .array diagnostics)])]

/-- What the server can do. -/
def capabilities : Json :=
  .object [
    ("capabilities", .object [("textDocumentSync", .int 1), ("hoverProvider", .bool true),
      ("documentFormattingProvider", .bool true)]),
    ("serverInfo", .object [("name", .text "matchc-lsp"), ("version", .text "dev")])]

/-! ### Documents -/

namespace Document

/-- The bytes of a document. -/
def bytes (d : Document) : List UInt8 := Frame.bytesOf d.content

/-- Compiles a content; `none` if it cannot be typed. -/
def of? (config : Config) (uri content : String) : Option Document :=
  (compile? config (Uri.path uri) (Text.ofString content)).map fun c => ⟨content, c⟩

/-- The message with the diagnostics of a document. -/
def publish (uri : String) (d : Document) : Json :=
  Editor.publish uri (d.compilation.report.map (diagnosticJson d.bytes))

/-- The plan with the shortest span around an offset; of several, the first. -/
def innermost? (offset : Int) (plans : List Plan) : Option Plan :=
  plans.foldl (fun best p =>
    if offset < p.span.start || p.span.stop < offset then best
    else match best with
      | none => some p
      | some b => if p.span.stop - p.span.start < b.span.stop - b.span.start then some p else best)
    none

/-- The plan of the match at a place, as text. -/
def hover (d : Document) (p : Position) : Json :=
  match innermost? (p.offset d.bytes) d.compilation.plans with
  | none => .null
  | some plan => .object [
      ("contents", .object [("kind", .text "markdown"),
        ("value", .text ("```\n" ++ plan.tree ++ "```"))]),
      ("range", (Range.ofSpan d.bytes plan.span.start plan.span.stop).toJson)]

/-- Whether something was reported about the text itself. -/
def hasTextErrors (d : Document) : Bool :=
  d.compilation.report.any fun x => x.stage = .parser || x.stage = .lexer

/-- The range of a whole document. -/
def wholeRange (d : Document) : Range := ⟨{}, .atEnd d.bytes⟩

/-- The edits that format a document: one for the whole of it, or none. -/
def formatting (d : Document) : Json :=
  match d.compilation.reading.program.print? with
  | none => .array []
  | some text =>
    if d.hasTextErrors || text = d.content then .array []
    else .array [.object [("range", d.wholeRange.toJson), ("newText", .text text)]]

end Document

/-! ### Handling -/

namespace Server

/-- The document of a name. -/
def document? (s : Server) (uri : String) : Option Document := s.documents.lookup uri

/-- The server without a document. -/
def close (s : Server) (uri : String) : Server :=
  { s with documents := s.documents.filter fun d => d.1 ≠ uri }

/-- The server with a document in place of an earlier one of its name. -/
def put (s : Server) (uri : String) (d : Document) : Server :=
  { s.close uri with documents := (s.close uri).documents ++ [(uri, d)] }

/-- Nothing happens. -/
def idle (s : Server) : Outcome := { server := s }

/-- A message is refused. -/
def refuse (s : Server) (e : HandleError) : Outcome := { server := s, error := some e }

/-- One message is sent. -/
def send (s : Server) (j : Json) : Outcome := { server := s, sent := [j] }

/-- The root that an editor gives, if it gives one. -/
def rootOf (current : String) (p : InitializeParams) : String :=
  match p.rootUri with
  | some uri => if uri = "" then p.rootPath.getD current else Uri.path uri
  | none => p.rootPath.getD current

/-- Takes a content for a document and reports about it. -/
def update? (s : Server) (uri content : String) : Option Outcome :=
  (Document.of? s.config uri content).map fun d => (s.put uri d).send (d.publish uri)

/-- A message that wants an answer. -/
def request (s : Server) (id : Json) (method : String) (j : Json) : Outcome :=
  match method with
  | "initialize" =>
    match params? InitializeParams.reader j with
    | none => s.refuse .malformed
    | some p => Server.send { s with root := rootOf s.root p } (reply id capabilities)
  | "shutdown" => Server.send { s with shutdown := true } (reply id .null)
  | "textDocument/hover" =>
    match params? HoverParams.reader j with
    | none => s.refuse .malformed
    | some p => s.send (reply id (match s.document? p.document.uri with
        | none => .null
        | some d => d.hover p.position))
  | "textDocument/formatting" =>
    match params? namedReader j with
    | none => s.refuse .malformed
    | some p => s.send (reply id (match s.document? p.uri with
        | none => .array []
        | some d => d.formatting))
  | _ => s.send (methodNotFound id method)

/-- A message that wants no answer. -/
def notification? (s : Server) (method : String) (j : Json) : Option Outcome :=
  match method with
  | "textDocument/didOpen" =>
    match params? openedReader j with
    | none => some (s.refuse .malformed)
    | some d => s.update? d.uri d.text
  | "textDocument/didChange" =>
    match params? ChangeParams.reader j with
    | none => some (s.refuse .malformed)
    | some p =>
      match p.contents.getLast? with
      | none => some s.idle
      | some content =>
        match s.document? p.document.uri with
        | none => some (s.refuse (.unknownDocument p.document.uri))
        | some _ => s.update? p.document.uri content
  | "textDocument/didClose" =>
    match params? namedReader j with
    | none => some (s.refuse .malformed)
    | some d => some ((s.close d.uri).send (publish d.uri []))
  | _ => some s.idle

/-- One message. -/
def handle? (s : Server) (body : List UInt8) : Option Outcome :=
  match Json.read? (Text.shown (Text.ofBytes body)) with
  | none => some (s.refuse .malformed)
  | some j =>
    match Envelope.ofJson? j with
    | none => some (s.refuse .malformed)
    | some m =>
      match m.id with
      | some id => some (s.request id m.method j)
      | none =>
        if m.method = "exit" then some { s.idle with done := true }
        else s.notification? m.method j

/-- Why a stream was left. -/
structure Ending where
  sent : List Json
  error : Option FrameError

/-- Reads at most `fuel` messages; `none` if one of them has no outcome or no memory can
hold it. -/
def serveUpTo? : (fuel : Nat) → Server → List UInt8 → Option Ending
  | 0, _, _ => some ⟨[], none⟩
  | fuel + 1, s, bs =>
    match Frame.read bs with
    | .finished => some ⟨[], none⟩
    | .failed e => some ⟨[], some e⟩
    | .unbounded => none
    | .message body rest => do
      let r ← s.handle? body
      if r.done then some ⟨r.sent, none⟩
      else
        let e ← serveUpTo? fuel r.server rest
        some ⟨r.sent ++ e.sent, e.error⟩

/-- Serves a stream: each message takes at least one byte of it. -/
def serve? (s : Server) (bs : List UInt8) : Option Ending := serveUpTo? (bs.length + 1) s bs

end Server

end Editor

end PatternPlan
