import CodeAtlas.Text.Basic

/-!
# Words of a source text

A source text is cut into words. First a table of separators is applied, each in turn: usually it puts
blanks around a bracket or a mark, so that it becomes a word of its own. Then blanks separate words,
and every newline is a word.
-/

namespace CodeAtlas

namespace Chars

open Text (isBlank)

def growFirst (c : Char) : List (List Char) → List (List Char)
  | [] => [[c]]
  | word :: rest => (c :: word) :: rest

def runs : List Char → List (List Char)
  | [] => []
  | c :: cs =>
    if c == '\n' then ['\n'] :: runs cs
    else if isBlank c then runs cs
    else
      match cs with
      | [] => [[c]]
      | d :: _ => if isBlank d then [c] :: runs cs else growFirst c (runs cs)

end Chars

abbrev Spacing := List (String × String)

namespace Spacing

def ofMarks (marks : List Char) : Spacing :=
  marks.map fun c => (String.ofList [c], String.ofList [' ', c, ' '])

def plainMarks : List Char :=
  [':', ';', '\x7b', '\x7d', '(', ')', '[', ']', '?', '!', ',', '<', '>']

def plain : Spacing := ofMarks plainMarks

def quoteMarks : List Char := plainMarks ++ ['"']

def withQuotes : Spacing := ofMarks quoteMarks

def bothQuoteMarks : List Char := quoteMarks ++ ['\x27']

def withBothQuotes : Spacing := ofMarks bothQuoteMarks

def apply (table : Spacing) (cs : List Char) : List Char :=
  table.foldl (fun text (old, new) => Chars.replace old.toList new.toList text) cs

def words (table : Spacing) (text : String) : List String :=
  (Chars.runs (table.apply text.toList)).map String.ofList

end Spacing

def joinWords (words : List String) : String := Text.join " " words

end CodeAtlas
