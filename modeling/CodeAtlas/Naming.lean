import CodeAtlas.Text.Case

/-!
# Names of classes as words

A name in camel case is cut before every upper-case letter. The first piece, which is the cut before
the first letter, is dropped.
-/

namespace CodeAtlas.Naming

def pieces (sep : Char) (cs : List Char) : List Char :=
  cs.flatMap fun c => if Text.isUpper c then sep :: Text.lowerChar c else [c]

def splitCamel (sep : Char) (s : String) : String :=
  String.ofList ((pieces sep s.toList).drop 1)

def camelToWords (s : String) : String := splitCamel ' ' s

def camelToKebab (s : String) : String := splitCamel '-' s

end CodeAtlas.Naming
