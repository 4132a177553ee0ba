import CodeAtlas.FileTree
import CodeAtlas.Settings

/-!
# From names in import statements to files of the project

Names of files are relative to the parent of the source directory, so a file's name starts with the
name of the source directory. A name that leads to no file of the project is left as it is.
-/

namespace CodeAtlas

structure Disk where
  tree : FileTree
  cwd : List String
deriving Inhabited

namespace Disk

def pathExists (d : Disk) (path : String) : Bool := d.tree.pathExists d.cwd path

def resolve? (d : Disk) (path : String) : Option String :=
  if path.toList.any fun c => c == '\x00' || (Text.isHalf c && !FileTree.isByteHalf c) then none
  else
    let real := FileTree.pathOf (d.tree.realPlace d.cwd (Path.normalize path))
    match d.tree.locate d.cwd real true with
    | .error .loop => none
    | _ => some real

end Disk

namespace Resolve

def parentSlash (source : String) : String := Path.parent source ++ "/"

def relativeName (source path : String) : String := Text.replace path (parentSlash source) ""

def inDirectory (dependency dir : String) : String := dir ++ "/" ++ dependency

def withSlash (s : String) : String :=
  if s.toList.getLast? == some '/' then s else s ++ "/"

/-- What `dependency` means in the directory `dir`, if that lies below `source`. -/
def fromDirectory (disk : Disk) (dependency dir source : String) : String :=
  match disk.resolve? (dir ++ "/" ++ dependency) with
  | none => dependency
  | some path =>
    if source == "" then dependency
    else if Text.contains path (withSlash source) then relativeName source path
    else dependency

def included (disk : Disk) (dependency dir source : String) : String :=
  let resolved := fromDirectory disk dependency dir source
  if disk.pathExists (parentSlash source ++ resolved) then resolved else dependency

def firstAlias? (s : String) : List (Value × Value) → Except Fault (Option (String × Value))
  | [] => .ok none
  | (.text key, v) :: rest => if Text.contains s key then .ok (some (key, v)) else firstAlias? s rest
  | _ :: _ => .error .wrongKind

def replaceAlias (s : String) : Value → Except Fault String
  | .map aliases => do
    match ← firstAlias? s aliases with
    | none => return s
    | some (key, .text new) => return Text.replace s key new
    | some _ => throw .wrongKind
  | _ => .error .noSuchPart

def countFrom (part : List Char) : Nat → List Char → Nat
  | _, [] => 0
  | skip + 1, _ :: cs => countFrom part skip cs
  | 0, c :: cs =>
    if part.isPrefixOf (c :: cs) then 1 + countFrom part (part.length - 1) cs
    else countFrom part 0 cs

def occurrences (s part : String) : Nat := countFrom part.toList 0 s.toList

/-- A package name `@scope/path`: the file or the index of the directory that its path names. -/
def scopedModule (disk : Disk) (dependency source : String) : String :=
  if !Text.contains dependency "/" then dependency
  else
    let path := Text.join "/" ((Text.splitOn dependency '/').drop 1)
    let index := source ++ "/" ++ path ++ "/index.js"
    let file := source ++ "/" ++ path ++ ".js"
    if disk.pathExists file then relativeName source file
    else if disk.pathExists index then relativeName source index
    else dependency

def directoryIndex (disk : Disk) (dir source : String) : String :=
  let index := fromDirectory disk "./index.js" dir source
  if disk.pathExists (parentSlash source ++ index) then index else "."

def moduleBase (disk : Disk) (dependency dir relativeDir source : String) : String :=
  if Text.contains dependency "@" then scopedModule disk dependency source
  else if dependency == "." then directoryIndex disk dir source
  else if occurrences dependency "./" == 1 && !Text.contains dependency ".." then
    inDirectory (Text.replace dependency "./" "") relativeDir
  else if Text.contains dependency ".." then fromDirectory disk dependency dir source
  else dependency

/-- Adds the extension of a script, or the index of a directory, if the file is there. -/
def completeModule (disk : Disk) (dependency source : String) : String :=
  let dependency :=
    if Path.suffix dependency != ".js"
        && disk.pathExists (parentSlash source ++ dependency ++ ".js") then dependency ++ ".js"
    else dependency
  if disk.pathExists (parentSlash source ++ dependency ++ "/index.js") then dependency ++ "/index.js"
  else dependency

def script (disk : Disk) (r : Resolution) (dependency dir relativeDir source : String) :
    Except Fault String := do
  let dependency ← if r.aliasesActive then replaceAlias dependency r.aliases else pure dependency
  return completeModule disk (moduleBase disk dependency dir relativeDir source) source

end Resolve

end CodeAtlas
