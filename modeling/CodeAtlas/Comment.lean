import CodeAtlas.Words

/-!
# Comments

Comments are recognised line by line. A line that holds the opening mark of a block starts a block, a line
that holds the closing mark ends it, and neither is code; nor is a line that starts with the mark of a
line comment.
-/

namespace CodeAtlas

structure CommentMarks where
  line : String
  blockStart : String
  blockStop : String
deriving Repr, DecidableEq

namespace CommentMarks

def cStyle : CommentMarks := ⟨"//", "/*", "*/"⟩

def scriptStyle : CommentMarks := ⟨"#", "\"\"\"", "\"\"\""⟩

inductive LineRole where
  | opens
  | closes
  | comment
  | plain
deriving Repr, DecidableEq

def role (m : CommentMarks) (line : List Char) : LineRole :=
  if Chars.contains m.blockStart.toList line then .opens
  else if Chars.contains m.blockStop.toList line then .closes
  else if m.line.toList.isPrefixOf (Chars.trim line) then .comment
  else .plain

def codeLinesFrom (m : CommentMarks) : (inBlock : Bool) → List (List Char) → List (List Char)
  | _, [] => []
  | inBlock, line :: rest =>
    match m.role line with
    | .opens => codeLinesFrom m true rest
    | .closes => codeLinesFrom m false rest
    | .comment => codeLinesFrom m inBlock rest
    | .plain => if inBlock then codeLinesFrom m inBlock rest else line :: codeLinesFrom m inBlock rest

def codeLines (m : CommentMarks) (words : List String) : List (List Char) :=
  m.codeLinesFrom false (Chars.lines (joinWords words).toList)

def strip (m : CommentMarks) (words : List String) : String :=
  String.ofList (Chars.join ['\n'] (m.codeLines words))

end CommentMarks

/-- For every line, and for every keyword that does not occur in it, the line once. -/
def linesWithout (words keywords : List String) : String :=
  Text.join "\n" ((Text.lines (joinWords words)).flatMap fun line =>
    (keywords.filter fun k => !Text.contains line k).map fun _ => line)

end CodeAtlas
