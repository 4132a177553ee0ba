import CodeAtlas.Scan.Imports

/-!
# Classes of a source file

Every class declaration opens an entity, which reaches to the brace that closes it. A class that is
declared twice in a file has the words of its last declaration.
-/

namespace CodeAtlas.Entities

/-- The words without comments, after empty pairs of braces are removed. -/
def scopeWords (words : List String) : List String :=
  let text := CommentMarks.cStyle.strip words
  let text := Text.replace text "\x7b\x7d" ""
  let text := Text.replace text "\x7b \x7d" ""
  Spacing.plain.words text

/-- The words up to the closing brace that brings `level` back to zero. -/
def scope : (level : Int) → List String → List String
  | _, [] => []
  | level, word :: rest =>
    if word == "\x7b" then word :: scope (level + 1) rest
    else if word == "\x7d" then
      if level - 1 = 0 then [] else word :: scope (level - 1) rest
    else word :: scope level rest

def declared? (word : String) (rest : List String) : Option (String × List String) :=
  (Phrase.classHeader? (joinWords (word :: rest))).map fun header => (header.name, scope 0 (word :: rest))

def declarations (words : List String) : Except Fault (List (Mention (String × List String))) := do
  let seen ← Mention.sightings (· == "class") words
  return seen.map fun (word, rest) => .ofOption (declared? word rest)

def found (ms : List (Mention (String × List String))) : OrderedMap String (List String) :=
  OrderedMap.ofList (ms.filterMap Mention.found?)

/-- The parents named in the class headers among the words of an entity. A header without a parent is
neither a hit nor a miss. -/
def parents (words : List String) : Except Fault (List (Mention String)) := do
  let headers ← Mention.all (· == "class") (fun _ => Phrase.classHeader?) words
  return headers.filterMap fun
    | .miss => some .miss
    | .hit header => header.parent.map .hit

def lastComponent (name : String) : String := ((Text.splitOn name '.').getLast?).getD ""

/-- The imports of a file whose last component occurs in one of the words, each once. -/
def usedImports (imports words : List String) : List String :=
  imports.foldl (fun acc i =>
    if words.any (fun w => Text.contains w (lastComponent i)) && !acc.contains i then acc ++ [i] else acc) []

def qualifiedName (package name : String) : String :=
  if package == "" then name else package ++ "." ++ name

def entityOf (file : ScanResult) (name : String) (words : List String) (inherits : List String) :
    ScanResult :=
  { analysis := file.analysis
    uniqueName := qualifiedName file.moduleName name
    fileName := file.fileName
    absoluteName := file.absoluteName ++ "/" ++ name
    displayName := name
    moduleName := file.moduleName
    scannedBy := file.scannedBy
    language := file.language
    words := words
    imports := usedImports file.imports words
    details := .entity { entityName := name, inherits := inherits, parent := some file.uniqueName } }

end CodeAtlas.Entities
