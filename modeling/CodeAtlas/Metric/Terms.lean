import CodeAtlas.Scan.Result

/-!
# Telling terms

The words of a result are scored by how much they tell it from other results. The scores come from a term model
that is fitted to all texts; here the texts are prepared and the best terms are chosen.
-/

namespace CodeAtlas

inductive TermModel where
  | unfitted
  | fitted (features : List String) (scores : List (List (Int × Value)))
deriving Inhabited

namespace Terms

def commonWords : List String :=
  ["switch", "props", "id", "and", "the", "to", "of", "or", "then", "any", "use", "see", "do", "this",
    "def", "end", "with", "without", "if", "a", "else", "in", "where", "is", "it", "by", "you", "for",
    "license", "all", "from", "that", "an", "get", "set", "as", "when", "up", "ok", "may", "foo",
    "bar", "baz", "at", "too", "only", "but", "just"]

def keywords : Language → List String
  | .java =>
    ["true", "false", "null", "throw", "return", "static", "public", "private", "protected", "super",
      "final", "char", "string", "synchronized", "fi", "throws", "long", "int", "import", "new", "void"]
  | .objc =>
    ["cgfloat", "float", "cgsize", "include", "struct", "const", "new", "self", "bool", "object",
      "return", "nonatomic", "atomic", "readonly", "readwrite", "case", "null", "long", "nsobject",
      "nullable", "nonnull", "void", "yes", "no", "id", "int", "strong", "assign"]
  | .javascript =>
    ["case", "break", "this", "static", "throw", "var", "let", "obj", "const", "string", "export",
      "true", "false", "return", "require", "function", "exports", "null", "void", "undefined"]
  | .c =>
    ["return", "int", "static", "void", "case", "break", "const", "struct", "printf", "fprintf",
      "unsigned", "extern", "char", "float", "sizeof", "unsinged", "undef", "define"]
  | .cpp =>
    ["return", "int", "static", "void", "case", "break", "const", "struct", "printf", "fprintf",
      "unsigned", "extern", "char", "float", "sizeof", "string", "bool", "virtual", "override",
      "nullptr", "final", "inline", "template"]
  | .python =>
    ["return", "self", "import", "enum", "true", "false", "none", "class", "cls", "super", "not"]

def isLetters (word : String) : Bool := word != "" && word.toList.all Text.isLetter

def lowerWord (word : String) : String := String.ofList (Text.lower word.toList)

/-- The word in lower case, if it tells something. Keywords are known for results of a known language only. -/
def telling? (language : Option Language) (word : String) : Except Fault (Option String) :=
  let w := lowerWord word
  if isLetters word && !commonWords.contains w then
    match language with
    | none => .error .noSuchPart
    | some l => .ok (if (keywords l).contains w then none else some w)
  else .ok none

def textOf (r : ScanResult) : Except Fault String := do
  let words ← r.words.mapM (telling? r.language)
  return String.join (words.filterMap id |>.map (· ++ " "))

/-- At most `limit` of the entries that pass, best first; of equally good ones the earlier first. -/
def best {α : Type} (passes : α → Bool) (atLeast : α → α → Bool) (limit : Nat) (entries : List α) : List α :=
  ((entries.mergeSort atLeast).filter passes).take limit

def maxTags : Nat := 7

def minScore : Float := 0.2

def score (v : Value) : Float := v.toFloat?.getD 0

/-- The term of a number. Terms are counted from zero, and from the last one backwards from minus one. -/
def feature? (features : List String) (column : Int) : Option String :=
  if 0 ≤ column then features[column.toNat]?
  else if column.natAbs ≤ features.length then features[features.length - column.natAbs]?
  else none

/-- The terms of a row with their scores, which have to be numbers. A term that occurs again keeps its place and gets the
last score. -/
def namedScores (features : List String) (row : List (Int × Value)) :
    Except Fault (OrderedMap String Value) := do
  let named ← row.mapM fun (column, v) =>
    match feature? features column with
    | some name => Except.ok (name, v)
    | none => Except.error Fault.outOfRange
  let scores := OrderedMap.ofList named
  if scores.values.all fun v => v.toFloat?.isSome then return scores else throw .wrongKind

def tags (scores : OrderedMap String Value) : List (String × Value) :=
  (best (fun e => minScore < score e.2) (fun a b => score b.2 ≤ score a.2) maxTags scores.entries).map
    fun (name, v) => ("tag_" ++ name, v)

end Terms

end CodeAtlas
