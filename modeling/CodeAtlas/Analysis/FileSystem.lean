import CodeAtlas.Analysis.Work
import CodeAtlas.Disk
import CodeAtlas.Text.Encoding

/-!
# The graph of the file system

The source directory is walked from the top down, in the order of names. Every directory that is not ignored and
every file that is scanned becomes a node below the node of its directory. The names of nodes are relative to the
parent of the source directory, so that they are also the names of file results.
-/

namespace CodeAtlas

namespace FileTree

structure Listing where
  root : String
  dirs : List String
  files : List String
deriving Repr, Inhabited

def leadsToDir (linkIsDir : String → Bool) (root : String) (entry : String × FileTree) : Bool :=
  match entry.2 with
  | .dir _ => true
  | .link _ => linkIsDir (Path.join root entry.1)
  | .file _ => false

mutual

/-- The directories of a tree from the top down. Links are listed, but not entered, and neither are
directories that are not kept. Every directory can be listed: one whose path has `maxPath` bytes or
more, or that may not be read, is not passed over, though `maxPath` bounds the paths of files that
are opened or looked for. -/
def listings (linkIsDir keep : String → Bool) (root : String) : FileTree → List Listing
  | .dir es =>
    { root := root
      dirs := (es.filter (leadsToDir linkIsDir root)).map Prod.fst
      files := (es.filter fun e => !leadsToDir linkIsDir root e).map Prod.fst }
      :: listingsBelow linkIsDir keep root es
  | _ => []

def listingsBelow (linkIsDir keep : String → Bool) (root : String) :
    List (String × FileTree) → List Listing
  | [] => []
  | (name, sub) :: rest =>
    (if keep name then listings linkIsDir keep (Path.join root name) sub else [])
      ++ listingsBelow linkIsDir keep root rest

end

end FileTree

structure Survey where
  view : GraphView
  scannedNames : List String
  filesIn : OrderedMap String (List String)
  scanned : Nat := 0
  skipped : Nat := 0
deriving Inhabited

namespace Survey

abbrev SurveyM := EStateM Fault Survey

def directoryAttributes (name : String) : List (String × Value) :=
  [("directory", .bool true), ("file", .bool false), ("display_name", .text name)]

def fileAttributes (name : String) : List (String × Value) :=
  [("directory", .bool false), ("file", .bool true), ("display_name", .text (Path.name name)),
    ("result_name", .text name)]

def addDirectory (s : Survey) (name : String) : Survey :=
  { s with view :=
    { s.view with
      fileNodes := s.view.fileNodes.insert name ⟨true, name, none⟩
      graph := s.view.graph.addNode name (directoryAttributes name) } }

def addEdge (s : Survey) (a b : String) : Survey :=
  { s with view := { s.view with graph := s.view.graph.addEdge a b } }

def projectName (source path : String) : String := Text.replace path (Resolve.parentSlash source) ""

def addSubdirectory (source root : String) (s : Survey) (name : String) : Survey :=
  let path := Path.join root name
  let last := Text.replace path (Path.parent path ++ "/") ""
  let node := projectName source (Path.normalize root ++ "/" ++ last)
  (s.addDirectory node).addEdge (projectName source (Path.normalize root)) node

def recordName (source root path : String) (s : Survey) : Survey :=
  let name := projectName source path
  let parent := projectName source (Path.normalize root)
  { s with
    scannedNames := if s.scannedNames.contains name then s.scannedNames else s.scannedNames ++ [name]
    filesIn := s.filesIn.insert parent (s.filesIn.getD parent [] ++ [name]) }

def addFile (source root path : String) (content : String) (s : Survey) : Survey :=
  let name := projectName source path
  let parent := projectName source (Path.normalize root)
  { s with
    scanned := s.scanned + 1
    view :=
      { s.view with
        fileNodes := s.view.fileNodes.insert name ⟨false, name, some content⟩
        graph := (s.view.graph.addNode name (fileAttributes name)).addEdge parent name } }

def skip : SurveyM Unit := modify fun s => { s with skipped := s.skipped + 1 }

def target? (disk : Disk) (path : String) : Option String :=
  if disk.tree.pathIsLink disk.cwd path then
    let real := FileTree.pathOf (disk.tree.realPlace disk.cwd path)
    if disk.pathExists real then some real else none
  else some path

def readSource (disk : Disk) (path : String) : Except Fault String := do
  return Text.ofLatin1 (← disk.read path)

def lift {α : Type} : Except Fault α → SurveyM α
  | .ok a => pure a
  | .error e => throw e

def visitFile (disk : Disk) (f : Filters) (source root name : String) : SurveyM Unit := do
  let path := Path.join root name
  if !(← lift (f.allowsFile path)) then skip
  else
    match target? disk path with
    | none => pure ()
    | some path =>
      let ext := Path.extension path
      if (← lift (f.allowsExtension ext)) && (FileKind.ofExtension? ext).isSome then
        modify (recordName source root path)
        let content ← lift (readSource disk path)
        modify (addFile source root path content)
      else skip

def wantedDirs (f : Filters) (names : List String) : Except Fault (List String) :=
  names.filterM fun name => do return !(← f.ignoresDirectory name)

def wantedFiles (f : Filters) (names : List String) : Except Fault (List String) :=
  names.filterM fun name => do return !(← f.ignoresFile name)

def visit (disk : Disk) (f : Filters) (source : String) (l : FileTree.Listing) : SurveyM Unit := do
  let dirs ← lift (wantedDirs f l.dirs)
  modify fun s => dirs.foldl (addSubdirectory source l.root) s
  (← lift (wantedFiles f l.files)).forM (visitFile disk f source l.root)

/-- The directories below the source directory that are not ignored. A source directory that is not there has none. -/
def listings (disk : Disk) (f : Filters) (source : String) : Except Fault (List FileTree.Listing) :=
  match FileTree.pathObstacle? source with
  | some .zeroCharacter => .error .badValue
  | some .halfCharacter => .error .unencodable
  | _ =>
    match disk.tree.stat? disk.cwd source with
    | some tree =>
      .ok (tree.listings (fun path => disk.tree.pathIsDir disk.cwd path)
        (fun name => (f.ignoresDirectory name).toOption == some false) source)
    | none => .ok []

def walk (disk : Disk) (f : Filters) (source : String) : SurveyM Unit := do
  modify fun s => s.addDirectory (Resolve.relativeName source source)
  (← lift (listings disk f source)).forM (visit disk f source)

/-- A long path with only its last segments. A collection stays as it is, but must not be long. -/
def shortPath : Value → Except Fault Value
  | .text s => .ok (.text (Path.truncate s))
  | v => do if 50 < (← v.members).length then throw .noSuchPart else return v

end Survey

namespace Work

def surveyFiles : Work Unit := do
  let j ← get
  let settings := j.analysis.settings
  if settings.source.isNull then throw (.failure "source_directory is not set")
  log .analysis .start ("starting to create filesystem graph in " ++ settings.name.display)
  let shown ← lift (Survey.shortPath settings.source)
  log .analysis .info ("starting scan at directory: " ++ shown.display)
  let source ← lift settings.sourcePath
  match j.analysis.graphs.get? .fileSystem with
  | none => throw .noSuchPart
  | some view =>
    let before : Survey := ⟨view, j.analysis.scannedNames, j.analysis.filesIn, 0, 0⟩
    let keep (s : Survey) : Work Unit := modifyAnalysis fun a =>
      { a.setGraph s.view with scannedNames := s.scannedNames, filesIn := s.filesIn }
    match Survey.walk j.session.disk settings.filters source before with
    | .error e s => do
      keep s
      throw e
    | .ok () s => do
      keep s
      let runtime : Duration := ⟨(← session).now - j.session.now⟩
      modifyStatistics fun st =>
        ((st.add .scanningRuntime (.duration runtime)).add .scannedFiles (.figure (.int s.scanned))).add
          .skippedFiles (.figure (.int s.skipped))

end Work

end CodeAtlas
