import PatternPlan.Store.Memory

/-!
# Paths and file trees

* `Path` — the names from the root of the file system down to a file or directory;
* `splitPath` — the parts of a written path between its slashes;
* `cleanPath` — the shortest written path that means the same, without looking at any file;
* `directoryOf`, `joinPath` — the directory a path names something in, and a path below another;
* `absolutePath` — the path that a written one means in a current directory;
* `FileTree` — the files and directories a command can see, and its current directory;
* `FileTree.resolve` — what a written path leads to, or why it leads nowhere;
* `FileTree.stat`, `FileTree.read` — the kind of what is there, and the content of a file;
* `FileTree.filesBelow` — the files below a directory, by name, a directory's before the next;
* `FileTree.makeDirectory` — directories made where there are none;
* `FileTree.storeAt`, `FileTree.record` — the database at a path, and a run saved in it;
* `readSource`, `readSources` — the contents of source files; one that cannot be read stops all of it.
-/

namespace PatternPlan

/-! ### Paths -/

/-- The names from the root down. -/
abbrev Path := List String

/-- The parts of a text between separators. -/
def splitOnChar (c : Char) : List Char → List (List Char)
  | [] => [[]]
  | d :: rest =>
    if d = c then [] :: splitOnChar c rest
    else match splitOnChar c rest with
      | part :: parts => (d :: part) :: parts
      | [] => [[d]]

/-- The parts of a written path between its slashes. -/
def splitPath (s : String) : List String := (splitOnChar '/' s.toList).map String.ofList

/-- Whether a written path starts at the root. -/
def isRooted (s : String) : Bool := s.toList.head? = some '/'

/-- Adds a part to cleaned parts, the last one first: `..` takes one away where there is one. -/
def cleanStep (rooted : Bool) (done : List String) (part : String) : List String :=
  if part = "" || part = "." then done
  else if part ≠ ".." then part :: done
  else match done with
    | [] => if rooted then [] else [".."]
    | p :: rest => if p = ".." then ".." :: done else rest

/-- The parts of a written path that remain when it is cleaned. -/
def cleanParts (s : String) : List String :=
  ((splitPath s).foldl (cleanStep (isRooted s)) []).reverse

/-- The shortest written path that means the same. -/
def cleanPath (s : String) : String :=
  let body := "/".intercalate (cleanParts s)
  if isRooted s then "/" ++ body else if body = "" then "." else body

/-- The directory that a path names something in. -/
def directoryOf (s : String) : String :=
  cleanPath (String.ofList (s.toList.reverse.dropWhile (· ≠ '/')).reverse)

/-- The path of something below a directory. -/
def joinPath (directory : String) (below : List String) : String :=
  cleanPath ("/".intercalate (directory :: below))

/-- The path that a written one means, without looking at any file. -/
def absolutePath (current : Path) (s : String) : Path :=
  ((splitPath s).foldl (cleanStep true) (if isRooted s then [] else current.reverse)).reverse

/-- A path as it is written. -/
def Path.text (p : Path) : String := "/" ++ "/".intercalate p

/-! ### File trees -/

/-- What a file holds: a text, or a database. -/
inductive FileContent where
  | text (t : Text)
  | store (c : Database.memory.Content)

/-- Files and directories.  Every directory on the way to a file is there too. -/
structure FileTree where
  current : Path := []
  files : List (Path × FileContent) := []
  directories : List Path := []

/-- Why a path leads nowhere. -/
inductive FileError where
  | notFound
  | notDirectory
  | isDirectory

def FileError.message : FileError → String
  | notFound => "no such file or directory"
  | notDirectory => "not a directory"
  | isDirectory => "is a directory"

/-- What was tried, where, and why it failed. -/
structure PathError where
  action : String
  path : String
  cause : FileError

def PathError.message (e : PathError) : String :=
  e.action ++ " " ++ e.path ++ ": " ++ e.cause.message

/-- What a path leads to. -/
inductive FileNode where
  | file (content : FileContent)
  | directory

namespace FileTree

/-! ### Looking up -/

/-- Whether `p` is an ancestor of `q`, or `q` itself. -/
def isUnder : (p q : Path) → Bool
  | [], _ => true
  | _, [] => false
  | a :: p, b :: q => a = b && isUnder p q

/-- What is at a path. -/
def node? (t : FileTree) (p : Path) : Option FileNode :=
  match t.files.lookup p with
  | some c => some (.file c)
  | none =>
    if isUnder p t.current || (t.files.any fun f => isUnder p f.1)
        || t.directories.any (isUnder p) then some .directory
    else none

/-- Follows the parts of a written path from a place. -/
def follow (t : FileTree) : Path → List String → Except FileError (Path × FileNode)
  | here, [] =>
    match t.node? here with
    | some n => .ok (here, n)
    | none => .error .notFound
  | here, part :: parts =>
    match t.node? here with
    | none => .error .notFound
    | some (.file _) => .error .notDirectory
    | some .directory =>
      if part = "" || part = "." then follow t here parts
      else if part = ".." then follow t here.dropLast parts
      else follow t (here ++ [part]) parts

/-- What a written path leads to. -/
def resolve (t : FileTree) (path : String) : Except FileError (Path × FileNode) :=
  if path = "" then .error .notFound
  else t.follow (if isRooted path then [] else t.current) (splitPath path)

/-- The kind of what a written path leads to. -/
def stat (t : FileTree) (path : String) : Except PathError (Path × FileNode) :=
  match t.resolve path with
  | .ok r => .ok r
  | .error e => .error ⟨"stat", path, e⟩

/-- The content of a file.  A store has no text of its own. -/
def read (t : FileTree) (path : String) : Except PathError Text :=
  match t.resolve path with
  | .error e => .error ⟨"open", path, e⟩
  | .ok (_, .directory) => .error ⟨"read", path, .isDirectory⟩
  | .ok (_, .file (.text s)) => .ok s
  | .ok (_, .file (.store _)) => .ok []

/-- Whether a path comes before another when each directory is listed by name. -/
def comesBefore : (p q : Path) → Bool
  | [], _ => true
  | _, [] => false
  | a :: p, b :: q => a < b || (a = b && comesBefore p q)

/-- What follows `p` in a path under it. -/
def below? : (p q : Path) → Option Path
  | [], q => some q
  | _ :: _, [] => none
  | a :: p, b :: q => if a = b then below? p q else none

/-- The files below a directory, as paths from there. -/
def filesBelow (t : FileTree) (directory : Path) : List Path :=
  (t.files.filterMap fun f => below? directory f.1).mergeSort comesBefore

/-! ### Making -/

/-- The beginnings of a list, the shortest first. -/
def beginnings {α : Type} (l : List α) : List (List α) :=
  (List.range l.length).map fun n => l.take (n + 1)

/-- Makes a directory and those on the way to it. -/
def makeDirectory (t : FileTree) (path : String) : Except PathError FileTree :=
  let parts := cleanParts path
  let written (ps : List String) : String :=
    (if isRooted path then "/" else "") ++ "/".intercalate ps
  let blocking := (beginnings parts).find? fun ps =>
    match t.resolve (written ps) with
    | .ok (_, .file _) => true
    | _ => false
  match blocking with
  | some ps => .error ⟨"mkdir", written ps, .notDirectory⟩
  | none => .ok { t with directories := t.directories ++ [absolutePath t.current path] }

/-- Puts a content in place of what a file held. -/
def put (t : FileTree) (p : Path) (c : FileContent) : FileTree :=
  { t with files := t.files.filter (fun f => f.1 ≠ p) ++ [(p, c)] }

/-- The database at a path. -/
def storeAt (t : FileTree) (p : Path) : Database.memory.Content :=
  match t.files.lookup p with
  | some (.store c) => c
  | _ => Database.memory.empty

/-- Saves a run in the database at a path, if it can be saved. -/
def record (t : FileTree) (p : Path) (m : Stamp) (r : Run) : FileTree :=
  t.put p (.store (Store.save .memory (t.storeAt p) m r).2)

end FileTree

/-! ### Source files -/

/-- A source file that cannot be read. -/
structure SourceError where
  path : String
  cause : PathError

def SourceError.message (e : SourceError) : String :=
  "reading " ++ e.path ++ ": " ++ e.cause.message

/-- The content of a source file. -/
def readSource (t : FileTree) (path : String) : Except SourceError Text :=
  match t.read path with
  | .ok text => .ok text
  | .error e => .error ⟨path, e⟩

/-- The contents of source files, with their paths. -/
def readSources (t : FileTree) (paths : List String) : Except SourceError (List (String × Text)) :=
  paths.mapM fun p => (readSource t p).map fun text => (p, text)

end PatternPlan
