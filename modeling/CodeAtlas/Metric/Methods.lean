import CodeAtlas.Language
import CodeAtlas.Settings

/-!
# Numbers of methods

Methods are told by a search pattern for each language: a name, bracketed parameters and an opening brace,
or the keyword that introduces a definition.
-/

namespace CodeAtlas.Methods

def patternText : Language → String
  | .java =>
    "\\b(?!if|for|while|switch|catch)\\b[a-zA-Z\\d_]+?\\s*?\\([a-zA-Z\\d\\s_,\\>\\<\\?\\*\\.\\[\\]]*?\\)\\s*?\\\x7b"
  | .objc => "[\\-\\+]\\s*?[a-zA-Z\\d_\\(\\)\\:\\*\\s]+?\\s*?\\\x7b"
  | .javascript =>
    "(function\\s+?)([a-zA-Z\\d_\\:\\*\\-\\<\\>\\?\\,\\[\\]\\.\\s\\|\\=\\$]+?)\\(([a-zA-Z\\d_\\(\\)\\:\\*\\s\\-\\<\\>\\?\\,\\[\\]\\.\\|\\=\\$\\/]*?)\\)*?[\\:]*?\\s*?\\\x7b"
  | .c =>
    "\\b(?!if|for|while|switch)\\b[a-zA-Z\\d_]+?\\s*?\\([a-zA-Z\\d\\s_,\\*]*?\\)\\s*?\\\x7b"
  | .cpp =>
    "\\b(?!if|for|while|switch)\\b[a-zA-Z\\d\\_\\:\\<\\>\\*\\&]+?\\s*?\\([\\(a-zA-Z\\d\\s_,\\*&:]*?\\)\\s*?\\w+\\s*?\\\x7b"
  | .python => "(def)\\s.+(.+):"

def pattern (language : Language) : Pattern.Node :=
  (Pattern.Node.parse (patternText language)).toOption.getD .empty

def countIn (language : Language) (text : String) : Nat := (pattern language).count text.toList

def count (language : Language) (words : List String) : Nat := countIn language (joinWords words)

end CodeAtlas.Methods
