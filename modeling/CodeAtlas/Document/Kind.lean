import CodeAtlas.Document.Node
import CodeAtlas.Document.Timestamp

/-!
# Kinds of parts

A tag says of which kind a part is. Without one, a plain text is a number, a truth value, a time or nothing if it is
written like one; all other parts stand for themselves.
-/

namespace CodeAtlas.Document

inductive Kind where
  | null
  | bool
  | int
  | float
  | complex
  | text
  | bytes
  | timestamp
  | named (name : String)
  | list
  | tuple
  | pairs
  | map
  | set
  | merge
  /-- The key of the value that stands for the map itself. -/
  | itself
  | unknown
deriving Repr, DecidableEq, Inhabited

namespace Kind

def ownKinds : List (String × Kind) :=
  [("null", .null), ("bool", .bool), ("int", .int), ("float", .float), ("str", .text), ("binary", .bytes),
    ("timestamp", .timestamp), ("seq", .list), ("omap", .pairs), ("pairs", .pairs), ("map", .map), ("set", .set),
    ("merge", .merge), ("value", .itself),
    ("python/none", .null), ("python/bool", .bool), ("python/int", .int), ("python/long", .int),
    ("python/float", .float), ("python/complex", .complex), ("python/str", .text), ("python/unicode", .text),
    ("python/bytes", .bytes), ("python/list", .list), ("python/tuple", .tuple), ("python/dict", .map)]

def nameTags : String := "python/name:"

def behind? (start s : String) : Option String :=
  if Text.startsWith s start then some (String.ofList (s.toList.drop start.length)) else none

def ofTag (tag : String) : Kind :=
  match behind? ownTags tag with
  | none => .unknown
  | some kind =>
    match ownKinds.lookup kind, behind? nameTags kind with
    | some k, _ => k
    | none, some name => .named name
    | none, none => .unknown

def truths : List String :=
  ["yes", "Yes", "YES", "no", "No", "NO", "true", "True", "TRUE", "false", "False", "FALSE", "on", "On", "ON", "off",
    "Off", "OFF"]

def nothings : List String := ["", "~", "null", "Null", "NULL"]

def ofText (s : String) : Kind :=
  let cs := s.toList
  let cs := if 1 < cs.length && cs.getLast? == some '\n' then cs.dropLast else cs
  let text := String.ofList cs
  if truths.contains text then .bool
  else if isFloat cs then .float
  else if isInt cs then .int
  else if nothings.contains text then .null
  else if (Timestamp.ofText? s.toList).any Timestamp.isPlain then .timestamp
  else match text with
    | "<<" => .merge
    | "=" => .itself
    | "!" | "&" | "*" => .unknown
    | _ => .text

def isFilledLater : Kind → Bool
  | .list | .pairs | .map | .set => true
  | _ => false

end Kind

def openTag : String := "!"

def Node.kind : Node → Kind
  | .scalar none plain s => if plain then Kind.ofText s else .text
  | .scalar (some tag) _ s => if tag == openTag then Kind.ofText s else Kind.ofTag tag
  | .list tag _ => if tag.all (· == openTag) then .list else Kind.ofTag (tag.getD "")
  | .map tag _ => if tag.all (· == openTag) then .map else Kind.ofTag (tag.getD "")
  | .within _ => .unknown

end CodeAtlas.Document
