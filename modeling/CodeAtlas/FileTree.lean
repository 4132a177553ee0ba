import CodeAtlas.Path
import CodeAtlas.Text.Half

/-!
# File trees

A tree of directories, files and symbolic links, as a pure value. A place in the tree is the list of
names that lead to it from the root. `FileTree.locate` looks a path up the way a system does:
every name on the way has to be there, links are followed, and `..` leads to the real parent.
`FileTree.realPlace` also accepts names that are not there.
-/

namespace CodeAtlas

inductive FileTree where
  | file (content : ByteArray)
  | link (target : String)
  | dir (entries : List (String × FileTree))
deriving Inhabited

namespace FileTree

def isDir : FileTree → Bool
  | .dir _ => true
  | _ => false

def isLink : FileTree → Bool
  | .link _ => true
  | _ => false

def entries : FileTree → List (String × FileTree)
  | .dir es => es
  | _ => []

def child? (t : FileTree) (name : String) : Option FileTree := t.entries.lookup name

def get? (t : FileTree) : List String → Option FileTree
  | [] => some t
  | name :: rest =>
    match t.child? name with
    | some sub => sub.get? rest
    | none => none

def insertEntry (name : String) (sub : FileTree) :
    List (String × FileTree) → List (String × FileTree)
  | [] => [(name, sub)]
  | (n, old) :: rest =>
    if name = n then (name, sub) :: rest
    else if name < n then (name, sub) :: (n, old) :: rest
    else (n, old) :: insertEntry name sub rest

def insert (t : FileTree) : List String → FileTree → FileTree
  | [], sub => sub
  | name :: rest, sub =>
    .dir (insertEntry name (((t.child? name).getD (.dir [])).insert rest sub) t.entries)

def erase (t : FileTree) : List String → FileTree
  | [] => .dir []
  | [name] => .dir (t.entries.filter fun (n, _) => n != name)
  | name :: rest =>
    match t.child? name with
    | some sub => .dir (insertEntry name (sub.erase rest) t.entries)
    | none => t

def names (path : String) : List String := Text.splitOn path '/'

inductive Obstacle where
  | missing
  | notADirectory
  | loop
  | tooLong
  | zeroCharacter
  | halfCharacter
deriving Repr, DecidableEq

def maxName : Nat := 255

def maxPath : Nat := 4096

def followNames (t : FileTree) (followLast : Bool)
    (jump : List String → List String → Except Obstacle (List String)) :
    List String → List String → Except Obstacle (List String)
  | here, [] => .ok here
  | here, name :: todo =>
    match t.get? here.reverse with
    | some (.dir es) =>
      if name == "" || name == "." then followNames t followLast jump here todo
      else if name == ".." then followNames t followLast jump here.tail todo
      else if maxName < name.utf8ByteSize then .error .tooLong
      else
        match es.lookup name with
        | none => .error .missing
        | some (.link target) =>
          if todo.isEmpty && !followLast then .ok (name :: here)
          else jump (if Path.isAbsolute target then [] else here) (names target ++ todo)
        | some _ => followNames t followLast jump (name :: here) todo
    | some _ => .error .notADirectory
    | none => .error .missing

def followFrom (t : FileTree) (followLast : Bool) :
    (links : Nat) → List String → List String → Except Obstacle (List String)
  | 0 => followNames t followLast fun _ _ => .error .loop
  | links + 1 => followNames t followLast (followFrom t followLast links)

/-- More links than this on one way count as a loop. -/
def maxLinks : Nat := 40

/-- Halves of characters that stand for bytes which are no text. Such bytes are in no name of the tree. -/
def isByteHalf (c : Char) : Bool := 0xDC80 ≤ Text.code c && Text.code c ≤ 0xDCFF

def pathObstacle? (path : String) : Option Obstacle :=
  let cs := path.toList
  if cs.any fun c => Text.isHalf c && !isByteHalf c then some .halfCharacter
  else if cs.contains '\x00' then some .zeroCharacter
  else if path == "" then some .missing
  else if maxPath ≤ path.utf8ByteSize then some .tooLong
  else none

def locate (t : FileTree) (cwd : List String) (path : String) (followLast : Bool) : Except Obstacle (List String) :=
  match pathObstacle? path with
  | some o => .error o
  | none =>
    (t.followFrom followLast maxLinks (if Path.isAbsolute path then [] else cwd.reverse)
      (names path)).map List.reverse

def follow? (t : FileTree) (cwd : List String) (path : String) (followLast : Bool) :
    Option (List String) :=
  (t.locate cwd path followLast).toOption

def stat? (t : FileTree) (cwd : List String) (path : String) : Option FileTree :=
  match t.follow? cwd path true with
  | some place => t.get? place
  | none => none

def pathExists (t : FileTree) (cwd : List String) (path : String) : Bool :=
  (t.stat? cwd path).isSome

def pathIsDir (t : FileTree) (cwd : List String) (path : String) : Bool :=
  (t.stat? cwd path).any isDir

def pathIsLink (t : FileTree) (cwd : List String) (path : String) : Bool :=
  match t.follow? cwd path false with
  | some place => (t.get? place).any isLink
  | none => false

/-! ### Real places -/

def lexical (here : List String) : List String → List String
  | [] => here
  | name :: todo =>
    if name == "" || name == "." then lexical here todo
    else if name == ".." then lexical here.tail todo
    else lexical (name :: here) todo

/-- As `followNames`, but names that are not there are taken as they are. `jump` resolves a link, and says whether it
could; behind a link that leads back to itself names are taken as they are. -/
def realNames (t : FileTree) (jump : List String → List String → List String → List String × Bool) :
    List String → List String → List String × Bool
  | here, [] => (here, true)
  | here, name :: todo =>
    if name == "" || name == "." then realNames t jump here todo
    else if name == ".." then realNames t jump here.tail todo
    else
      match t.get? (here.reverse ++ [name]) with
      | some (.link target) =>
        match jump (name :: here) (if Path.isAbsolute target then [] else here) (names target) with
        | (place, true) => realNames t jump place todo
        | (place, false) => (lexical place todo, false)
      | _ => realNames t jump (name :: here) todo

/-- Resolves links inside each other; those at `active` are being resolved. -/
def realFrom (t : FileTree) : (depth : Nat) → (active : List (List String)) → List String → List String →
    List String × Bool
  | 0, _ => realNames t fun link _ _ => (link, false)
  | depth + 1, active =>
    realNames t fun link here todo =>
      if active.contains link then (link, false) else realFrom t depth (link :: active) here todo

mutual

def linkCount : FileTree → Nat
  | .file _ => 0
  | .link _ => 1
  | .dir es => linkCountIn es

def linkCountIn : List (String × FileTree) → Nat
  | [] => 0
  | (_, sub) :: rest => linkCount sub + linkCountIn rest

end

def realPlace (t : FileTree) (cwd : List String) (path : String) : List String :=
  (t.realFrom t.linkCount [] (if Path.isAbsolute path then [] else cwd.reverse) (names path)).1.reverse

def pathOf (place : List String) : String := "/" ++ Text.join "/" place

end FileTree

end CodeAtlas
