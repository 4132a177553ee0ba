import CodeAtlas.Comment

/-!
# Source lines of code

Lines that are neither blank nor comments. A line that opens a block of comment and does not close it starts a
block; a line that closes one and does not open it ends it; a line that does both is a comment.
-/

namespace CodeAtlas.SourceLines

def countFrom (m : CommentMarks) : (inBlock : Bool) → List (List Char) → Nat
  | _, [] => 0
  | inBlock, line :: rest =>
    match Chars.contains m.blockStart.toList line, Chars.contains m.blockStop.toList line with
    | true, false => countFrom m true rest
    | false, true => countFrom m false rest
    | true, true => countFrom m inBlock rest
    | false, false =>
      if m.line.toList.isPrefixOf (Chars.trim line) then countFrom m inBlock rest
      else if !inBlock && Chars.trim line != [] then 1 + countFrom m inBlock rest
      else countFrom m inBlock rest

def count (m : CommentMarks) (words : List String) : Nat :=
  countFrom m false (Chars.lines (joinWords words).toList)

end CodeAtlas.SourceLines
