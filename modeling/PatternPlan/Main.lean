import PatternPlan.Cli.Run
import PatternPlan.Store.Memory
import Std.Time.DateTime.Timestamp

/-!
# The program

The outer layer: it reads the files that a command may look at, runs the command on them, prints
what it prints, and writes the stores that it changed.
-/

namespace PatternPlan

namespace Main

/-! ### Files -/

/-- A path as it is found in the file system. -/
def entryOf (path : String) : IO.FS.DirEntry := { root := ".", fileName := path }

/-- What a file holds. -/
def contentOf (bytes : List UInt8) : FileContent :=
  let t := Text.ofBytes bytes
  match Rows.decode? t.shown with
  | some s => .store s
  | none => .text t

/-- Adds a file, or a directory with all below it. -/
partial def load (t : FileTree) (path : String) : IO FileTree := do
  let p := absolutePath t.current path
  let place := (entryOf path).path
  if ← place.isDir then
    let entries ← place.readDir
    let t := { t with directories := p :: t.directories }
    entries.foldlM (fun t e => load t (path ++ "/" ++ e.fileName)) t
  else if ← place.pathExists then
    let bytes ← IO.FS.readBinFile place
    return t.put p (contentOf bytes.toList)
  else return t

/-- The words of arguments that may name files. -/
def pathsIn (args : List String) : List String :=
  args.flatMap fun a => [a, String.ofList ((a.toList.dropWhile (· ≠ '=')).drop 1)]

/-- The files that a command may look at. -/
def loadFor (args : List String) : IO FileTree := do
  let current := absolutePath [] (← IO.currentDir).toString
  let start : FileTree := { current := current }
  let configs := (Config.upward current).flatMap fun d =>
    Config.fileNames.map fun n => Path.text (d ++ [n])
  let t ← (pathsIn (args.drop 1) ++ configs).filter (· ≠ "") |>.foldlM load start
  match Config.resolve t "" "" with
  | .ok c => load t (if c.store = "" then Cli.defaultStore else c.store)
  | .error _ => load t Cli.defaultStore

/-- Writes the stores of a tree. -/
def writeStores (t : FileTree) : IO Unit :=
  t.files.forM fun
    | (p, .store rows) => do
      IO.FS.createDirAll (Path.text p.dropLast)
      IO.FS.writeFile (Path.text p) (Rows.encode rows)
    | _ => pure ()

/-! ### Running -/

/-- A random id in the usual form. -/
def randomId : IO String := do
  let bytes ← IO.getRandomBytes 16
  let digits := bytes.toList.zipIdx.flatMap fun (b, i) =>
    let n := if i = 6 then b.toNat % 16 + 64 else if i = 8 then b.toNat % 64 + 128 else b.toNat
    Quoted.hex 2 n
  let part (start count : Nat) : String := String.ofList ((digits.drop start).take count)
  return "-".intercalate [part 0 8, part 8 4, part 12 4, part 16 4, part 20 12]

/-- The id of a run: the last digits count the runs of one command. -/
def numbered (base : String) (n : Nat) : String :=
  let digits := Quoted.hex 4 n
  String.ofList (base.toList.take (base.length - digits.length) ++ digits)

/-- All bytes of a stream. -/
partial def readAll (s : IO.FS.Stream) (done : ByteArray) : IO ByteArray := do
  let more ← s.read 65536
  if more.isEmpty then return done else readAll s (done ++ more)

/-- Runs the command line. -/
def runCommand (args : List String) : IO UInt32 := do
  let t ← loadFor args
  let base ← randomId
  let input ← if args.head? = some "repl" then readAll (← IO.getStdin) .empty else pure .empty
  let setting : Cli.Setting := {
    now := (← Std.Time.Timestamp.now).toNanosecondsSinceUnixEpoch.val
    runId := numbered base
    input := input.toList }
  let (output, t) := Cli.run setting t args
  writeStores t
  match output with
  | none =>
    (← IO.getStderr).putStrLn "Internal error: a range has lost its end\nThis is a bug. Please report it."
    return 1
  | some o =>
    (← IO.getStdout).putStr o.stdout
    (← IO.getStderr).write ⟨o.stderr.bytes.toArray⟩
    return UInt32.ofNat o.exit

end Main

end PatternPlan

/-- Runs the command that the arguments name. -/
def main (args : List String) : IO UInt32 := PatternPlan.Main.runCommand args
