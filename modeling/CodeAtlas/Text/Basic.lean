import CodeAtlas.Text.Blank

/-!
# Operations on texts

Each operation is defined on lists of characters, in `CodeAtlas.Chars`, where it recurses on the
list; `CodeAtlas.Text` has the same operations on strings.
-/

namespace CodeAtlas.Chars

open Text (isBlank isLineBreak)

def contains (part : List Char) : List Char → Bool
  | [] => part.isEmpty
  | c :: cs => part.isPrefixOf (c :: cs) || contains part cs

def interleave (new : List Char) : List Char → List Char
  | [] => new
  | c :: cs => new ++ c :: interleave new cs

/-- `replaceFrom old new skip cs` drops `skip` characters, then replaces `old` by `new` from left to
right. -/
def replaceFrom (old new : List Char) : Nat → List Char → List Char
  | _, [] => []
  | skip + 1, _ :: cs => replaceFrom old new skip cs
  | 0, c :: cs =>
    if old.isPrefixOf (c :: cs) then new ++ replaceFrom old new (old.length - 1) cs
    else c :: replaceFrom old new 0 cs

/-- Replaces every occurrence of `old` by `new`, from left to right and without overlaps. The empty
text occurs before every character and at the end. -/
def replace (old new cs : List Char) : List Char :=
  if old.isEmpty then interleave new cs else replaceFrom old new 0 cs

def splitOn (sep : Char) : List Char → List (List Char)
  | [] => [[]]
  | c :: cs =>
    if c == sep then [] :: splitOn sep cs
    else
      match splitOn sep cs with
      | [] => [[c]]
      | piece :: pieces => (c :: piece) :: pieces

/-- The lines of a text, without their ends. A text that ends a line has no empty line after it. -/
def lines : List Char → List (List Char)
  | [] => []
  | '\r' :: '\n' :: cs => [] :: lines cs
  | c :: cs =>
    if isLineBreak c then [] :: lines cs
    else
      match lines cs with
      | [] => [[c]]
      | line :: rest => (c :: line) :: rest

def dropTrailing (p : Char → Bool) (cs : List Char) : List Char :=
  (cs.reverse.dropWhile p).reverse

def trimBy (p : Char → Bool) (cs : List Char) : List Char :=
  dropTrailing p (cs.dropWhile p)

def trim (cs : List Char) : List Char := trimBy isBlank cs

def words : List Char → List (List Char)
  | [] => []
  | [c] => if isBlank c then [] else [[c]]
  | c :: d :: cs =>
    if isBlank c then words (d :: cs)
    else if isBlank d then [c] :: words (d :: cs)
    else
      match words (d :: cs) with
      | [] => [[c]]
      | word :: rest => (c :: word) :: rest

def join (sep : List Char) : List (List Char) → List Char
  | [] => []
  | [piece] => piece
  | piece :: pieces => piece ++ sep ++ join sep pieces

def after? (part : List Char) : List Char → Option (List Char)
  | [] => if part.isEmpty then some [] else none
  | c :: cs => if part.isPrefixOf (c :: cs) then some ((c :: cs).drop part.length) else after? part cs

def cut? (part : List Char) : List Char → Option (List Char × List Char)
  | [] => if part.isEmpty then some ([], []) else none
  | c :: cs =>
    if part.isPrefixOf (c :: cs) then some ([], (c :: cs).drop part.length)
    else (cut? part cs).map fun (before, rest) => (c :: before, rest)

/-- Every line break, of one or two characters, becomes a newline. -/
def normalizeNewlines : List Char → List Char
  | [] => []
  | '\r' :: '\n' :: cs => '\n' :: normalizeNewlines cs
  | '\r' :: cs => '\n' :: normalizeNewlines cs
  | c :: cs => c :: normalizeNewlines cs

end CodeAtlas.Chars

namespace CodeAtlas.Text

def contains (s part : String) : Bool := Chars.contains part.toList s.toList

def replace (s old new : String) : String :=
  String.ofList (Chars.replace old.toList new.toList s.toList)

def splitOn (s : String) (sep : Char) : List String :=
  (Chars.splitOn sep s.toList).map String.ofList

def lines (s : String) : List String :=
  (Chars.lines s.toList).map String.ofList

def trim (s : String) : String :=
  String.ofList (Chars.trim s.toList)

def words (s : String) : List String :=
  (Chars.words s.toList).map String.ofList

def startsWith (s start : String) : Bool :=
  start.toList.isPrefixOf s.toList

def endsWith (s ending : String) : Bool :=
  ending.toList.isSuffixOf s.toList

def drop (s : String) (n : Nat) : String :=
  String.ofList (s.toList.drop n)

def join (sep : String) (pieces : List String) : String :=
  String.ofList (Chars.join sep.toList (pieces.map String.toList))

def padLeft (s : String) (n : Nat) (c : Char) : String :=
  String.ofList (List.replicate (n - s.length) c ++ s.toList)

end CodeAtlas.Text
