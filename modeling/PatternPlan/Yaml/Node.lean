import PatternPlan.Yaml.Scanner

/-!
# Nodes of a document

Block and flow mappings and sequences, and plain and quoted scalars; JSON is part of it.

* `Yaml` — a node and the line it starts on; scalars keep their text and whether they were quoted;
* `Yaml.Reading` — reads tokens;
* `Yaml.node` — the node that starts at the next token;
* `Yaml.read` — the first document of a text, if there is one.

Every function that reads nodes takes a bound on the number of its steps; `Yaml.room` is enough.
-/

namespace PatternPlan

/-- A node, with the line it starts on, counted from one. -/
inductive Yaml where
  | scalar (line : Nat) (isPlain : Bool) (text : String)
  | sequence (line : Nat) (items : List Yaml)
  | mapping (line : Nat) (entries : List (Yaml × Yaml))
deriving Inhabited

namespace Yaml

/-- The line a node starts on. -/
def line : Yaml → Nat
  | scalar line _ _ | sequence line _ | mapping line _ => line

/-- The node that says nothing. -/
def empty (line : Nat) : Yaml := .scalar (line + 1) true ""

/-! ### Tokens -/

/-- Reads tokens. -/
abbrev Reading := StateT Scanner (Except Error)

/-- The next token. -/
def peek : Reading Token := do
  let s ← (← get).fill
  set s
  return s.queue.head?.getD ⟨.streamEnd, s.cursor.line⟩

/-- Takes the next token. -/
def take : Reading Unit := modify fun s => { s with queue := s.queue.drop 1, taken := s.taken + 1 }

/-- Whether the next token is one of some kinds. -/
def nextIs (kinds : List TokenKind) : Reading Bool := do
  let t ← peek
  return t.kind ∈ kinds

/-- Refuses what the next token says about a node that starts on a line. -/
def refuse {α : Type} (problem : Problem) (start : Nat) : Reading α := do
  let t ← peek
  throw (.ofTokens problem start t.line)

/-! ### Nodes -/

mutual

/-- The node that starts at the next token: between brackets no node by indentation, and items that
stand no further right than the key before them only behind a key. -/
def node : (room : Nat) → (block indentless : Bool) → Reading Yaml
  | 0, _, _ => throw ⟨.nodeContent, none⟩
  | room + 1, block, indentless => do
    let t ← peek
    match t.kind, block, indentless with
    | .blockEntry, _, true => return .sequence (t.line + 1) (← indentlessItems room)
    | .scalar isPlain text, _, _ =>
      take
      return .scalar (t.line + 1) isPlain text
    | .flowSequenceStart, _, _ =>
      take
      return .sequence (t.line + 1) (← flowItems room t.line true)
    | .flowMappingStart, _, _ =>
      take
      return .mapping (t.line + 1) (← flowEntries room t.line true)
    | .blockSequenceStart, true, _ =>
      take
      return .sequence (t.line + 1) (← blockItems room t.line)
    | .blockMappingStart, true, _ =>
      take
      return .mapping (t.line + 1) (← blockEntries room t.line)
    | _, _, _ => refuse .nodeContent t.line

/-- The items of a sequence by indentation that starts on a line. -/
def blockItems : (room : Nat) → (start : Nat) → Reading (List Yaml)
  | 0, _ => throw ⟨.nodeContent, none⟩
  | room + 1, start => do
    let t ← peek
    match t.kind with
    | .blockEntry =>
      take
      let item ← if ← nextIs [.blockEntry, .blockEnd] then pure (empty t.line)
        else node room true false
      return item :: (← blockItems room start)
    | .blockEnd =>
      take
      return []
    | _ => refuse .expectedEntry start

/-- The items of a sequence that stands no further right than the key before it. -/
def indentlessItems : (room : Nat) → Reading (List Yaml)
  | 0 => throw ⟨.nodeContent, none⟩
  | room + 1 => do
    let t ← peek
    match t.kind with
    | .blockEntry =>
      take
      let item ← if ← nextIs [.blockEntry, .key, .value, .blockEnd] then pure (empty t.line)
        else node room true false
      return item :: (← indentlessItems room)
    | _ => return []

/-- The entries of a mapping by indentation that starts on a line. -/
def blockEntries : (room : Nat) → (start : Nat) → Reading (List (Yaml × Yaml))
  | 0, _ => throw ⟨.nodeContent, none⟩
  | room + 1, start => do
    let t ← peek
    match t.kind with
    | .key =>
      take
      let key ← if ← nextIs [.key, .value, .blockEnd] then pure (empty t.line)
        else node room true true
      let value ← blockValue room
      return (key, value) :: (← blockEntries room start)
    | .blockEnd =>
      take
      return []
    | _ => refuse .expectedKey start

/-- The value of an entry by indentation. -/
def blockValue : (room : Nat) → Reading Yaml
  | 0 => throw ⟨.nodeContent, none⟩
  | room + 1 => do
    let t ← peek
    match t.kind with
    | .value =>
      take
      if ← nextIs [.key, .value, .blockEnd] then return empty t.line else node room true true
    | _ => return empty t.line

/-- The items of a sequence between brackets that starts on a line. -/
def flowItems : (room : Nat) → (start : Nat) → (first : Bool) → Reading (List Yaml)
  | 0, _, _ => throw ⟨.nodeContent, none⟩
  | room + 1, start, first => do
    if !first && !(← nextIs [.flowSequenceEnd]) then
      if ← nextIs [.flowEntry] then take else refuse .expectedBracket start
    let t ← peek
    match t.kind with
    | .flowSequenceEnd =>
      take
      return []
    | .key =>
      take
      let item ← flowPair room t.line
      return item :: (← flowItems room start false)
    | _ =>
      let item ← node room false false
      return item :: (← flowItems room start false)

/-- A mapping of one entry in place of an item between brackets.  A mark that follows its key mark
right away counts as the key. -/
def flowPair : (room : Nat) → (start : Nat) → Reading Yaml
  | 0, _ => throw ⟨.nodeContent, none⟩
  | room + 1, start => do
    let t ← peek
    let key ← if t.kind ∈ [.value, .flowEntry, .flowSequenceEnd] then do
        take
        pure (empty t.line)
      else node room false false
    let t ← peek
    let value ← if t.kind = .value then do
        take
        if ← nextIs [.flowEntry, .flowSequenceEnd] then pure (empty t.line)
        else node room false false
      else pure (empty t.line)
    let _ ← peek
    return .mapping (start + 1) [(key, value)]

/-- The entries of a mapping between brackets that starts on a line. -/
def flowEntries : (room : Nat) → (start : Nat) → (first : Bool) → Reading (List (Yaml × Yaml))
  | 0, _, _ => throw ⟨.nodeContent, none⟩
  | room + 1, start, first => do
    if !first && !(← nextIs [.flowMappingEnd]) then
      if ← nextIs [.flowEntry] then take else refuse .expectedBrace start
    let t ← peek
    match t.kind with
    | .flowMappingEnd =>
      take
      return []
    | .key =>
      take
      let t ← peek
      let key ← if t.kind ∈ [.value, .flowEntry, .flowMappingEnd] then pure (empty t.line)
        else node room false false
      let value ← flowValue room
      return (key, value) :: (← flowEntries room start false)
    | _ =>
      let key ← node room false false
      let u ← peek
      return (key, empty u.line) :: (← flowEntries room start false)

/-- The value of an entry between brackets. -/
def flowValue : (room : Nat) → Reading Yaml
  | 0 => throw ⟨.nodeContent, none⟩
  | room + 1 => do
    let t ← peek
    match t.kind with
    | .value =>
      take
      let u ← peek
      if u.kind ∈ [.flowEntry, .flowMappingEnd] then return empty u.line
      else node room false false
    | _ => return empty t.line

end

/-! ### Documents -/

/-- The first document: it may stand behind a mark, and what follows it is not looked at beyond its
first tokens. -/
def document (room : Nat) : Reading (Option Yaml) := do
  let _ ← peek
  take
  let t ← peek
  match t.kind with
  | .streamEnd => return none
  | .documentStart =>
    take
    let u ← peek
    let v ← if u.kind ∈ [.documentStart, .documentEnd, .streamEnd] then pure (empty u.line)
      else node room true false
    let _ ← peek
    return some v
  | _ =>
    let v ← node room true false
    let _ ← peek
    return some v

/-- A bound on the number of steps that read a text: each character gives a few tokens at most. -/
def room (s : String) : Nat := 16 * (s.length + 4)

/-- The first document of a text, if there is one. -/
def read (s : String) : Except Error (Option Yaml) :=
  (document (room s)).run' (Scanner.ofString s)

end Yaml

end PatternPlan
