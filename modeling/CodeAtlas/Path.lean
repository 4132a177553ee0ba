import CodeAtlas.Text.Basic

/-!
# Path names

A path name is a text; `Path.parts` cuts it into its root and its segments, dropping empty segments and
single dots. A name that starts with exactly two slashes keeps them.
-/

namespace CodeAtlas.Path

def root (cs : List Char) : List Char :=
  match cs with
  | '/' :: '/' :: '/' :: _ => ['/']
  | '/' :: '/' :: _ => ['/', '/']
  | '/' :: _ => ['/']
  | _ => []

def isStep (segment : List Char) : Bool := segment != [] && segment != ['.']

def segments (cs : List Char) : List (List Char) := (Chars.splitOn '/' cs).filter isStep

def assemble (root : List Char) (segs : List (List Char)) : List Char :=
  match root, segs with
  | [], [] => ['.']
  | root, segs => root ++ Chars.join ['/'] segs

def normalize (s : String) : String :=
  String.ofList (assemble (root s.toList) (segments s.toList))

def parentChars (cs : List Char) : List Char := assemble (root cs) (segments cs).dropLast

def parent (s : String) : String := String.ofList (parentChars s.toList)

def name (s : String) : String := String.ofList ((segments s.toList).getLast?.getD [])

/-- The part of a name from its last dot on, unless that dot comes first or last. -/
def suffixOfName (cs : List Char) : List Char :=
  let ext := cs.reverse.takeWhile (· != '.')
  if ext.length < cs.length && ext != [] && ext.length + 1 < cs.length then '.' :: ext.reverse else []

def suffix (s : String) : String := String.ofList (suffixOfName (name s).toList)

def extension (s : String) : String :=
  let cs := s.toList
  let base := (cs.reverse.takeWhile (· != '/')).reverse
  let ext := (base.reverse.takeWhile (· != '.')).reverse
  let stem := base.take (base.length - ext.length - 1)
  if ext.length < base.length && stem.any (· != '.') then String.ofList ('.' :: ext) else ""

def isAbsolute (s : String) : Bool := s.toList.head? == some '/'

/-- `s` below `dir`, unless `s` is absolute. The texts are joined as they are. -/
def join (dir s : String) : String :=
  if isAbsolute s || dir == "" then s
  else if dir.toList.getLast? == some '/' then dir ++ s
  else dir ++ "/" ++ s

def below (dir s : String) : String := normalize (join dir s)

def truncate (s : String) : String :=
  if 50 < s.length then
    let pieces := Text.splitOn s '/'
    let n := pieces.length
    ".../" ++ Text.join "/" (pieces.drop (if 5 ≤ n then n - 5 else 2 * n - 5))
  else s

end CodeAtlas.Path
