import CodeAtlas.Scan.Resolve
import CodeAtlas.Text.Quoted

/-!
# Changes to files

Writing a file, removing a directory and copying a tree, as functions from one state of the disk to the next.
-/

namespace CodeAtlas

namespace FileTree

def pathBelow (path name : String) : String := if path == "" then name else path ++ "/" ++ name

mutual

def filesBelow (linked : String → Option ByteArray) (path : String) : FileTree → List (String × ByteArray)
  | .file content => [(path, content)]
  | .link _ => (linked path).toList.map fun content => (path, content)
  | .dir es => filesIn linked path es

def filesIn (linked : String → Option ByteArray) (path : String) : List (String × FileTree) → List (String × ByteArray)
  | [] => []
  | (name, sub) :: rest => filesBelow linked (pathBelow path name) sub ++ filesIn linked path rest

end

def newer (old new : List (String × ByteArray)) : List (String × ByteArray) :=
  new.filter fun (path, content) => !(old.lookup path).any fun c => c.toList == content.toList

def changes (before after : FileTree) : List (String × ByteArray) :=
  newer (before.filesBelow (fun _ => none) "") (after.filesBelow (fun _ => none) "")

/-- The files below a place, seen from there. A link to a file is a file too. -/
def visibleFiles (t : FileTree) (place : List String) : List (String × ByteArray) :=
  let linked (path : String) : Option ByteArray :=
    match t.stat? place path with
    | some (.file content) => some content
    | _ => none
  ((t.get? place).getD (.dir [])).filesBelow linked ""

def splitLast (path : String) : String × String :=
  let cs := path.toList
  let last := (cs.reverse.takeWhile (· != '/')).reverse
  let lead := cs.take (cs.length - last.length)
  (if lead.isEmpty then "." else String.ofList lead, String.ofList last)

def Obstacle.fault (path : String) : Obstacle → Fault
  | .missing => .fileNotFound
  | .notADirectory => .notADirectory ("[Errno 20] Not a directory: " ++ Text.quoted path)
  | .loop | .tooLong => .fileSystem
  | .zeroCharacter => .badValue
  | .halfCharacter => .unencodable

def canCreate (name : String) : Bool := name != "" && name != "." && name != ".."

/-- The place of a file that a path names or would name if it were made. Links are followed, also those that lead to
nothing. -/
def creationPlace (t : FileTree) (shown : String) : (links : Nat) → (cwd : List String) → (path : String) →
    Except Fault (List String)
  | 0, _, _ => .error .fileSystem
  | links + 1, cwd, path =>
    match t.locate cwd path true with
    | .ok place => if (t.get? place).any isDir then .error .isADirectory else .ok place
    | .error .missing =>
      let (parentPath, name) := splitLast path
      match t.locate cwd parentPath true with
      | .error o => .error (o.fault shown)
      | .ok parent =>
        match (t.get? parent).bind fun sub => sub.child? name with
        | some (.link target) => creationPlace t shown links parent target
        | _ =>
          if path == "" then .error .fileNotFound
          else if canCreate name then .ok (parent ++ [name])
          else .error .isADirectory
    | .error o => .error (o.fault shown)

end FileTree

namespace Disk

def isDir (d : Disk) (path : String) : Bool := d.tree.pathIsDir d.cwd path

def holdsDir (d : Disk) : Value → Except Fault Bool
  | .text path => .ok (d.isDir path)
  | .atom (.bytes bs) => .ok ((String.fromUTF8? ⟨bs.toArray⟩).any d.isDir)
  | .bool _ => .ok false
  | .int n => if -2147483648 ≤ n && n ≤ 2147483647 then .ok false else .error .tooLarge
  | _ => .error .wrongKind

def write (d : Disk) (path : String) (content : ByteArray) : Except Fault Disk := do
  let place ← d.tree.creationPlace path FileTree.maxLinks d.cwd path
  return { d with tree := d.tree.insert place (.file content) }

def read (d : Disk) (path : String) : Except Fault ByteArray :=
  match d.tree.locate d.cwd path true with
  | .error o => .error (o.fault path)
  | .ok place =>
    match d.tree.get? place with
    | some (.file content) => .ok content
    | _ => .error .isADirectory

def removeDir (d : Disk) (path : String) : Except Fault Disk :=
  match d.tree.locate d.cwd path false with
  | .error o => .error (o.fault path)
  | .ok place =>
    match d.tree.get? place with
    | some (.dir _) => .ok { d with tree := d.tree.erase place }
    | _ => .error (.notADirectory path)

def copyDir (d : Disk) (source target : String) : Except Fault Disk :=
  match d.tree.stat? d.cwd source with
  | some (.dir es) =>
    match d.tree.follow? d.cwd target false with
    | some _ => .error .fileExists
    | none => do
      let place ← d.tree.creationPlace target FileTree.maxLinks d.cwd target
      return { d with tree := d.tree.insert place (.dir es) }
  | _ => .error .fileNotFound

end Disk

end CodeAtlas
