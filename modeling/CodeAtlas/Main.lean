import CodeAtlas.Program.Start
import Std.Time.DateTime.Timestamp

/-!
# The command line program

The program itself works on a picture of the disk. Here the picture is made of the files that a command line asks
for, the program is run on it, and what it has changed is written back.
-/

namespace CodeAtlas.Main

def placeOf (path : String) : List String := (FileTree.names path).filter (· != "")

partial def load (path : String) : IO FileTree := do
  let place := (← IO.currentDir) / path
  match (← place.symlinkMetadata).type with
  | .dir =>
    let subs ← (← place.readDir).toList.mapM fun e => do return (e.fileName, ← load e.path.toString)
    return .dir (subs.foldl (fun es (name, sub) => FileTree.insertEntry name sub es) [])
  | .symlink => return .link (← IO.FS.realPath place).toString
  | _ => return .file (← IO.FS.readBinFile place)

def add (tree : FileTree) (path : String) : IO FileTree := do
  try
    let real ← IO.FS.realPath ((← IO.currentDir) / path)
    return tree.insert (placeOf real.toString) (← load real.toString)
  catch _ => return tree

def addDirectory (tree : FileTree) (path : String) : IO FileTree := do
  try
    let real ← IO.FS.realPath ((← IO.currentDir) / path)
    let place := placeOf real.toString
    if (tree.get? place).isSome || !(← real.isDir) then return tree
    return tree.insert place (.dir [])
  catch _ => return tree

def named (arguments : List String) : Option String × Option String :=
  match CommandLine.Request.ofArguments arguments with
  | .run options => (options.config, options.language)
  | _ => (none, none)

def directories (p : Program) (document : Option String) : List String × List String :=
  match document with
  | none => ([], [])
  | some path =>
    let analyses := match Run.load path p with
      | .ok _ p | .error _ p => p.configuration.analyses
    (analyses.filterMap fun a => a.settings.source.text?, analyses.filterMap fun a => a.settings.exports.directory.text?)

def picture (session : Session) (arguments : List String) : IO FileTree := do
  let (document, language) := named arguments
  let templates := language.toList.map Run.templateName
  let own := [session.home ++ "/output"] ++ templates.map fun t => session.home ++ "/configs/" ++ t
  let tree ← (own ++ document.toList ++ templates).foldlM add session.disk.tree
  let (sources, exports) := directories { session := { session with disk.tree := tree } } document
  let pages := ("." :: exports).map fun e => e ++ "/html"
  let tree ← (sources ++ pages).foldlM add tree
  ((session.home ++ "/configs") :: "." :: exports).foldlM addDirectory tree

def save (before after : FileTree) : IO Unit := do
  for (path, _) in FileTree.changes after before do
    if (after.get? (FileTree.names path)).isNone then IO.FS.removeFile ("/" ++ path)
  for (path, content) in FileTree.changes before after do
    IO.FS.createDirAll (FileTree.splitLast ("/" ++ path)).1
    IO.FS.writeBinFile ("/" ++ path) content

def run (arguments : List String) : IO UInt32 := do
  let cwd := placeOf (← IO.currentDir).toString
  let now ← Std.Time.Timestamp.now
  let home := (← IO.appDir).toString
  let session : Session :=
    { disk := ⟨.dir [], cwd⟩, home := home, now := now.toNanosecondsSinceUnixEpoch.toInt / 1000 }
  let tree ← picture session arguments
  let start : Program := { session := { session with disk.tree := tree } }
  let (fault, p) := match Run.start (← IO.appPath).toString arguments start with
    | .ok _ p => (none, p)
    | .error e p => (some e, p)
  save tree p.session.disk.tree
  IO.print p.session.console
  for r in p.session.log.records do IO.eprintln (r.source.name ++ " " ++ r.level.letter ++ " " ++ r.message)
  match fault with
  | none | some (.exit "0") => return 0
  | some (.exit _) => return 2
  | some e =>
    IO.eprintln (reprStr e)
    return 1

end CodeAtlas.Main

def main (arguments : List String) : IO UInt32 := CodeAtlas.Main.run arguments
