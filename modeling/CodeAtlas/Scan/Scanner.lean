import CodeAtlas.Scan.Entities

/-!
# Scanners

There is a scanner for each language. It keeps the results of the files that it has scanned and of the
entities found in them, by their unique names.
-/

namespace CodeAtlas

structure Scanner where
  language : Language
  results : Results := ∅
deriving Inhabited

structure ScanState where
  scanner : Scanner
  statistics : Statistics
deriving Inhabited

abbrev ScanM := EStateM Fault ScanState

namespace ScanM

def tallied {α : Type} (x : Tallied α) : ScanM α := fun s =>
  match x s.statistics with
  | .ok a st => .ok a { s with statistics := st }
  | .error e st => .error e { s with statistics := st }

def modifyResults (f : Results → Results) : ScanM Unit :=
  modify fun s => { s with scanner := { s.scanner with results := f s.scanner.results } }

end ScanM

namespace Scanner

structure SourceFile where
  name : String
  path : String
  content : String
deriving Repr, Inhabited

def blankResult (language : Language) (ctx : ScanContext) (source : String) (file : SourceFile) :
    ScanResult :=
  let relative := Resolve.relativeName source file.path
  { analysis := ctx.analysis
    uniqueName := relative
    fileName := file.name
    absoluteName := file.path
    displayName := if language = .javascript then relative else file.name
    moduleName := ""
    scannedBy := language.scannerName
    language := some language
    words := language.fileSpacing.words file.content
    details := .file (.ofNames source relative file.path file.content) }

def placeOf (source : String) (r : ScanResult) : Place :=
  { source := source
    absoluteDir := (r.file?.map FileDetails.absoluteDir).getD ""
    relativeDir := (r.file?.map FileDetails.relativeDir).getD "" }

def packageOf (words : List String) : Tallied String := do
  let mentions ← Tallied.lift (Mention.all (· == "package") (fun _ => Phrase.packageName?) words)
  let names ← Tallied.collect (fun name => pure [name]) mentions
  return names.getLast?.getD ""

def fileResult (language : Language) (ctx : ScanContext) (file : SourceFile) : Tallied ScanResult := do
  let source ← Tallied.lift ctx.settings.sourcePath
  let r := blankResult language ctx source file
  let package ← if language = .java then packageOf r.words else pure ""
  let imports ← Imports.ofFile language ctx (placeOf source r) r.words
  return { r with moduleName := package, imports := imports }

def scanFile (ctx : ScanContext) (file : SourceFile) : ScanM ScanResult := do
  let r ← ScanM.tallied (fileResult (← get).scanner.language ctx file)
  ScanM.modifyResults fun rs => rs.insert r.uniqueName r
  return r

def ownFiles (rs : Results) (analysis : Nat) : Results :=
  rs.filter fun _ r => r.analysis == analysis && r.isFile

def knownFile (keys : List String) (dependency : String) : String :=
  let path := Text.replace dependency "." "/" ++ ".java"
  (keys.find? fun key => Text.contains path key).getD dependency

/-- After all files have been scanned: dotted names of known files become the names of the files. -/
def linkFiles (ctx : ScanContext) : ScanM Unit := do
  if (← get).scanner.language = .java then
    ScanM.modifyResults fun rs =>
      let keys := (ownFiles rs ctx.analysis).keys
      rs.mapValues fun _ r =>
        if r.analysis == ctx.analysis && r.isFile then
          { r with imports := r.imports.map (knownFile keys) }
        else r

def notImplemented (language : Language) : Fault :=
  .notImplemented ("currently not implemented in " ++ language.scannerName)

def scanClasses (file : ScanResult) : ScanM Unit := do
  let mentions ← ScanM.tallied (Tallied.lift (Entities.declarations (Entities.scopeWords file.words)))
  let _ ← ScanM.tallied (Tallied.collect (fun _ => pure ([] : List Unit)) mentions)
  (Entities.found mentions).entries.forM fun (name, words) => do
    let parents ← ScanM.tallied (Tallied.lift (Entities.parents words))
    let inherits ← ScanM.tallied (Tallied.collect (fun p => pure [p]) parents)
    let entity := Entities.entityOf file name words inherits
    ScanM.modifyResults fun rs => rs.insert entity.uniqueName entity

def scanEntities (ctx : ScanContext) : ScanM Unit := do
  let scanner := (← get).scanner
  if scanner.language = .java then
    (ownFiles scanner.results ctx.analysis).values.forM scanClasses
  else throw (notImplemented scanner.language)

def uniqueEntityName (language : Language) (package name : String) : Except Fault String :=
  if language = .java then .ok (Entities.qualifiedName package name)
  else .error (notImplemented language)

/-- What an import in a file means; only some languages resolve names. -/
def resolveImport (language : Language) (ctx : ScanContext) (r : ScanResult) (dependency : String) :
    Except Fault String := do
  let place := placeOf (← ctx.settings.sourcePath) r
  match language with
  | .c | .cpp | .objc => return Imports.resolveIncluded ctx place dependency
  | .javascript => Imports.resolveScript ctx place dependency
  | _ => throw .noSuchPart

end Scanner

end CodeAtlas
