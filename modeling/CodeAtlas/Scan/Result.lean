import CodeAtlas.Language
import CodeAtlas.OrderedMap
import CodeAtlas.Path
import CodeAtlas.Value.Written

/-!
# Results of a scan

A result describes a source file, or an entity (a class) found in one: its names, its words, what it
imports, and the figures that metrics have computed for it.
-/

namespace CodeAtlas

structure FileDetails where
  relativePath : String
  relativeDir : String
  absoluteDir : String
  source : String
  preprocessed : String := ""
deriving Repr, Inhabited

/-- The details of a file: its name from the parent of the directory `root`, its full name, and its text. The
directory of the full name is put below that parent even if it is absolute. -/
def FileDetails.ofNames (root relative absolute source : String) : FileDetails :=
  { relativePath := relative
    relativeDir := Path.parent relative
    absoluteDir := Path.normalize (Path.parent root ++ "/" ++ Path.parent absolute)
    source := source }

structure EntityDetails where
  entityName : String
  inherits : List String := []
  parent : Option String := none
deriving Repr, Inhabited

inductive ResultDetails where
  | file (details : FileDetails)
  | entity (details : EntityDetails)
deriving Repr, Inhabited

structure ScanResult where
  analysis : Nat
  uniqueName : String
  fileName : String
  absoluteName : String
  displayName : String
  moduleName : String
  scannedBy : String
  language : Option Language
  words : List String
  imports : List String := []
  metrics : OrderedMap String Value := ∅
  details : ResultDetails
deriving Inhabited

abbrev Results := OrderedMap String ScanResult

namespace ScanResult

def isFile (r : ScanResult) : Bool :=
  match r.details with
  | .file _ => true
  | .entity _ => false

def isEntity (r : ScanResult) : Bool := !r.isFile

def file? (r : ScanResult) : Option FileDetails :=
  match r.details with
  | .file d => some d
  | .entity _ => none

def entity? (r : ScanResult) : Option EntityDetails :=
  match r.details with
  | .entity d => some d
  | .file _ => none

def inherits (r : ScanResult) : List String := (r.entity?.map EntityDetails.inherits).getD []

def source? (r : ScanResult) : Option String := r.file?.map FileDetails.source

def metricsValue (r : ScanResult) : Value := .map (r.metrics.entries.map fun (k, v) => (.text k, v))

def wordCount (r : ScanResult) : String := Value.intText r.words.length

/-- A description on several lines, with the given values for what may have been replaced. -/
def describeWith (r : ScanResult) (unique entity imports inherits package metrics : Value) : String :=
  let gap := ",\n        "
  let wordsAndImports := "tokens: " ++ r.wordCount ++ gap
    ++ "import dependencies: self._scanned_import_dependencies=" ++ imports.literal ++ gap
  let origin := "scanned by: " ++ r.scannedBy ++ gap ++ "module name: " ++ package.display ++ gap
  match r.details with
  | .file _ =>
    "File result: " ++ unique.display ++ gap ++ wordsAndImports ++ origin
      ++ "metrics: self._metrics=" ++ metrics.literal
  | .entity _ =>
    "Entity result: " ++ unique.display ++ gap ++ "entity name: " ++ entity.display ++ gap ++ wordsAndImports
      ++ "inheritance dependencies: self._scanned_inheritance_dependencies=" ++ inherits.literal ++ gap
      ++ origin ++ "metrics: self.metrics=" ++ metrics.literal

def describe (r : ScanResult) : String :=
  r.describeWith (.text r.uniqueName) (.text ((r.entity?.map EntityDetails.entityName).getD ""))
    (.ofStrings r.imports) (.ofStrings r.inherits) (.text r.moduleName) r.metricsValue

end ScanResult

namespace Results

def files (rs : Results) : Results := rs.filter fun _ r => r.isFile

def entities (rs : Results) : Results := rs.filter fun _ r => r.isEntity

end Results

end CodeAtlas
