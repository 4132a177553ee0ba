import CodeAtlas.Text.Basic
import CodeAtlas.Text.Letter

/-!
# Phrases of import and class declarations

A phrase is matched from a place in a text onwards, element by element. Before each element gaps are
skipped. A keyword counts only if no letter, digit, underscore or dollar sign touches it.
-/

namespace CodeAtlas

/-- A place in a text: the character before it and the text after it. -/
structure Spot where
  last : Option Char
  rest : List Char
deriving Repr, DecidableEq

namespace Spot

def start (s : String) : Spot := ⟨none, s.toList⟩

def isGap (c : Char) : Bool := c == ' ' || c == '\n' || c == '\t' || c == '\r'

def isIdentifier (c : Char) : Bool := Text.asciiAlnum c || c == '_' || c == '$'

def advance (s : Spot) : Nat → Spot
  | 0 => s
  | n + 1 =>
    match s.rest with
    | [] => s
    | c :: cs => advance ⟨some c, cs⟩ n

def skipGaps (s : Spot) : Spot := s.advance (s.rest.takeWhile isGap).length

def literal? (text : String) (s : Spot) : Option Spot :=
  let s := s.skipGaps
  if text.toList.isPrefixOf s.rest then some (s.advance text.toList.length) else none

def keyword? (text : String) (s : Spot) : Option Spot :=
  let s := s.skipGaps
  if text.toList.isPrefixOf s.rest && !s.last.any isIdentifier
      && !(s.rest.drop text.toList.length).head?.any isIdentifier then
    some (s.advance text.toList.length)
  else none

def word? (p : Char → Bool) (s : Spot) : Option (List Char × Spot) :=
  let s := s.skipGaps
  match s.rest.takeWhile p with
  | [] => none
  | word => some (word, s.advance word.length)

/-- Moves on past single characters out of `marks`. -/
def skipMarks (marks : List Char) : (fuel : Nat) → Spot → Spot
  | 0, s => s
  | fuel + 1, s =>
    let t := s.skipGaps
    match t.rest with
    | c :: _ => if marks.contains c then skipMarks marks fuel (t.advance 1) else s
    | [] => s

def marks? (marks : List Char) (s : Spot) : Option Spot :=
  let t := s.skipGaps
  match t.rest with
  | c :: _ => if marks.contains c then some ((t.advance 1).skipMarks marks t.rest.length) else none
  | [] => none

def lastWord? (p : Char → Bool) : (fuel : Nat) → Spot → Option (List Char)
  | 0, _ => none
  | fuel + 1, s =>
    match s.word? p with
    | none => none
    | some (word, t) => some ((lastWord? p fuel t).getD word)

def past? (text : String) (s : Spot) : Option Spot :=
  (Chars.after? text.toList s.rest).map fun rest => ⟨text.toList.getLast?, rest⟩

end Spot

namespace Phrase

open Spot

def nameChar (extra : List Char) (c : Char) : Bool := Text.asciiAlnum c || extra.contains c

def terminated? (keyword : String) (extra : List Char) (text : String) : Option String := do
  let s ← (Spot.start text).keyword? keyword
  let (name, s) ← s.word? (nameChar extra)
  let _ ← s.literal? ";"
  return String.ofList name

def packageName? (text : String) : Option String := terminated? "package" ['.'] text

def importedName? (text : String) : Option String := terminated? "import" ['.', '*'] text

structure ClassHeader where
  name : String
  parent : Option String
deriving Repr, DecidableEq

def extends? (s : Spot) : Option (List Char × Spot) := do
  let s ← s.keyword? "extends"
  s.word? (nameChar [])

def classHeader? (text : String) : Option ClassHeader := do
  let s ← (Spot.start text).keyword? "class"
  let (name, s) ← s.word? (nameChar [])
  let (parent, s) := match extends? s with
    | some (parent, t) => (some (String.ofList parent), t)
    | none => (none, s)
  if s.rest.contains '\x7b' then some ⟨String.ofList name, parent⟩ else none

def includedName? (extra : List Char) (text : String) : Option String := do
  let s ← (Spot.start text).keyword? "#include"
  let s := s.skipMarks ['<', '>', '"'] s.rest.length
  let (name, _) ← s.word? (nameChar extra)
  return String.ofList name

def importedHeader? (text : String) : Option String := do
  let s ← (Spot.start text).keyword? "#import"
  let s ← (s.keyword? "<").or (s.keyword? "\"")
  let (name, _) ← s.word? (nameChar ['.', '/', '_'])
  return String.ofList name

/-- The module named in quotes after the first `opener`. Of several names the last counts. -/
def quotedModule? (opener : String) (text : String) : Option String := do
  let s ← (Spot.start text).past? opener
  let s ← s.marks? ['\x27', '"']
  let name ← s.lastWord? (nameChar ['@', '.', '*', '_', '-', '/']) s.rest.length
  return String.ofList name

def moduleChars : List Char := ['.', '_', '-', '/']

def relativeImports? (dots text : String) : Option String := do
  let s ← (Spot.start text).keyword? "from"
  let s ← s.keyword? dots
  let s ← s.keyword? "import"
  let name ← s.lastWord? (nameChar (moduleChars ++ [',', ' '])) s.rest.length
  return String.ofList name

def importedModule? (text : String) : Option String := do
  let s ← ((Spot.start text).keyword? "import").or ((Spot.start text).keyword? "from")
  let (name, _) ← s.word? (nameChar moduleChars)
  return String.ofList name

end Phrase

end CodeAtlas
