import CodeAtlas.Scan.Mention
import CodeAtlas.Scan.Resolve
import CodeAtlas.Scan.Result

/-!
# Imports of a source file

Comments are removed, the text is cut into words again, and every import statement yields the name of
what it imports: as it is written, or as the name of a file of the project where it leads to one.
Names on the ignore lists are left out.
-/

namespace CodeAtlas

structure ScanContext where
  analysis : Nat
  settings : Settings
  disk : Disk
  knownModules : List String
deriving Inhabited

structure Place where
  source : String
  absoluteDir : String
  relativeDir : String
deriving Repr, Inhabited

namespace Imports

def codeWords (language : Language) (words : List String) : List String :=
  language.importSpacing.words (language.comments.strip words)

def unlessIgnored (ctx : ScanContext) (dependency : String) : Tallied (List String) := do
  if ← Tallied.lift (ctx.settings.filters.ignoresDependency dependency) then return []
  return [dependency]

def java (ctx : ScanContext) (words : List String) : Tallied (List String) := do
  let mentions ← Tallied.lift (Mention.all (· == "import") (fun _ => Phrase.importedName?) words)
  Tallied.collect (unlessIgnored ctx) mentions

def includeChars : Language → List Char
  | .c => ['.', '/', '"', '_', '-']
  | _ => ['.', '/', '"', '_']

def includeMentions (language : Language) (words : List String) :
    Except Fault (List (Mention String)) :=
  Mention.all (· == "#include") (fun _ => Phrase.includedName? (includeChars language)) words

def headerMentions (words : List String) : Except Fault (List (Mention String)) :=
  Mention.all (· == "#import") (fun _ => Phrase.importedHeader?) words

def resolveIncluded (ctx : ScanContext) (here : Place) (dependency : String) : String :=
  Resolve.included ctx.disk dependency here.absoluteDir here.source

def included (ctx : ScanContext) (here : Place) (mentions : List (Mention String)) :
    Tallied (List String) :=
  Tallied.collect (fun d => unlessIgnored ctx (resolveIncluded ctx here d)) mentions

def scriptMentions (words : List String) : Except Fault (List (Mention String)) :=
  Mention.all (fun w => w == "import" || w == "require")
    (fun w => Phrase.quotedModule? (if w == "import" then "from" else "(")) words

def resolveScript (ctx : ScanContext) (here : Place) (dependency : String) : Except Fault String :=
  Resolve.script ctx.disk ctx.settings.resolution dependency here.absoluteDir here.relativeDir here.source

def script (ctx : ScanContext) (here : Place) (words : List String) : Tallied (List String) := do
  let mentions ← Tallied.lift (scriptMentions words)
  Tallied.collect (fun d => do unlessIgnored ctx (← Tallied.lift (resolveScript ctx here d))) mentions

/-! ### Line by line -/

def endedLines : List String → List (List String)
  | [] => []
  | word :: rest =>
    if word == "\n" then [] :: endedLines rest
    else
      match endedLines rest with
      | [] => []
      | line :: lines => (word :: line) :: lines

def addLine (lines : List String) (line : String) : List String :=
  if lines.contains line then lines else lines ++ [line]

def importLines (words : List String) : List String :=
  ((endedLines words).map joinWords).foldl (fun acc line =>
    if Text.contains line "import" && !Text.contains line ">" then addLine acc line else acc) []

inductive LineImport where
  | siblings (names : List String)
  | uncles (names : List String)
  | single (name : String) (isFrom : Bool)
deriving Repr, DecidableEq

def splitNames (s : String) : List String := (Text.splitOn s ',').map Text.trim

def lineImport? (line : String) : Option LineImport :=
  let isFrom := Text.contains line "from"
  if Text.contains line "from . " then
    (Phrase.relativeImports? "." line).map fun names =>
      if Text.contains names "," then .siblings (splitNames names) else .single names isFrom
  else if Text.contains line "from .. " then
    (Phrase.relativeImports? ".." line).map fun names =>
      if Text.contains names "," then .uncles (splitNames names) else .single names isFrom
  else (Phrase.importedModule? line).map fun name => .single name isFrom

/-- Whether a module is taken from elsewhere: a known one, unless the settings say otherwise. -/
def isForeign (r : Resolution) (known : List String) (name : String) : Except Fault Bool := do
  let resolve ← r.resolve.hasText name
  let keep ← r.keep.hasText name
  return if resolve && !keep then false
    else if keep && !resolve then true
    else known.contains name

def withExtension (name : String) : String :=
  if Text.contains name ".py" then name else name ++ ".py"

def fromSource (disk : Disk) (source dependency : String) : String :=
  let path := Text.replace dependency "." "/"
  let path := if source == "." then path else Path.name source ++ "/" ++ path
  if disk.pathExists (Resolve.parentSlash source ++ path ++ ".py") then path ++ ".py" else path

def startsWithOneDot (name : String) : Bool :=
  match name.toList with
  | '.' :: c :: _ => c != '.'
  | _ => false

def resolveName (ctx : ScanContext) (here : Place) (name : String) (foreign : Bool) : String :=
  let above := Text.contains name ".."
  let name := if above then Text.replace name ".." "../" else name
  let sibling := startsWithOneDot name
  let name := if sibling then Text.drop name 1 else name
  let climbs := Text.contains name "../"
  if !foreign && !climbs && !(above || sibling) then fromSource ctx.disk here.source name
  else
    let name := if !foreign && !climbs then Resolve.inDirectory name here.relativeDir else name
    let name :=
      if Text.contains name "../" then
        Resolve.fromDirectory ctx.disk name here.absoluteDir here.source
      else name
    if foreign then name else withExtension (Text.replace name "." "/")

/-- What a single module name means. Without `from`, it is taken from elsewhere. -/
def resolveSingle (ctx : ScanContext) (here : Place) (name : String) (isFrom : Bool) : Except Fault String := do
  let foreign ← isForeign ctx.settings.resolution ctx.knownModules name
  return resolveName ctx here name (!isFrom || foreign)

def resolveLine (ctx : ScanContext) (here : Place) : LineImport → Except Fault (List String)
  | .siblings names => .ok (names.map fun n => withExtension (Resolve.inDirectory n here.relativeDir))
  | .uncles names => .ok (names.map fun n => withExtension (Text.replace n ".." "../"))
  | .single name isFrom => do return [← resolveSingle ctx here name isFrom]

def keepUnignored (ctx : ScanContext) : List String → Tallied (List String)
  | [] => pure []
  | d :: ds => do return (← unlessIgnored ctx d) ++ (← keepUnignored ctx ds)

def byLine (ctx : ScanContext) (here : Place) (words : List String) : Tallied (List String) :=
  Tallied.collect (fun i => do keepUnignored ctx (← Tallied.lift (resolveLine ctx here i)))
    ((importLines words).map fun line => .ofOption (lineImport? line))

def ofFile (language : Language) (ctx : ScanContext) (here : Place) (words : List String) :
    Tallied (List String) := do
  let code := codeWords language words
  match language with
  | .java => java ctx code
  | .c | .cpp => included ctx here (← Tallied.lift (includeMentions language code))
  | .objc => included ctx here (← Tallied.lift (headerMentions code))
  | .javascript => script ctx here code
  | .python => byLine ctx here code

end Imports

end CodeAtlas
