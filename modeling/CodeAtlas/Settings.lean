import CodeAtlas.Pattern.Match
import CodeAtlas.Pattern.Syntax
import CodeAtlas.Value.Member

/-!
# Settings of an analysis

What an analysis scans, what it leaves out, what it exports and how the figures are weighted in the
browser. A setting that is taken from a configuration document as it stands is a `Value`.
-/

namespace CodeAtlas

structure Matcher where
  source : String
  node : Pattern.Node
  /-- Whether it is meant for bytes and cannot be held against a text. -/
  forBytes : Bool := false
deriving Repr, DecidableEq

namespace Matcher

def compile (source : String) : Except Fault Matcher := do
  return { source := source, node := ← Pattern.Node.parse source }

def ofValue : Value → Except Fault Matcher
  | .text source => compile source
  | .atom (.bytes bs) => do
    return { ← compile (String.ofList (bs.map fun b => Char.ofNat b.toNat)) with forBytes := true }
  | _ => .error .wrongKind

def accepts (m : Matcher) (s : String) : Except Fault Bool :=
  if m.forBytes then .error .wrongKind else .ok (m.node.matchesStart s.toList)

end Matcher

structure Exports where
  directory : Value := .null
  graphml : Bool := false
  tableFile : Bool := false
  tableConsoleOverall : Bool := false
  tableConsole : Bool := false
  json : Bool := false
  forceGraph : Bool := false
deriving Inhabited

structure Radii where
  fanIn : Value := .float 0.1
  fanOut : Value := .float 0.1
  louvain : Value := .float 0.02
  sloc : Value := .float 0.005
  methods : Value := .float 0.05
  whitespace : Value := .float 0.005
  churn : Value := .float 0.01
  authors : Value := .float 1.0
deriving Inhabited

structure Heatmaps where
  slocActive : Value := .bool true
  fanOutActive : Value := .bool true
  slocWeight : Value := .float 1.5
  fanOutWeight : Value := .float 1.5
  scoreBase : Value := .int 10
  scoreLimit : Value := .int 300
  churnActive : Value := .bool true
  whitespaceActive : Value := .bool true
  churnWeight : Value := .float 1.3
  whitespaceWeight : Value := .float 1.5
  churnScoreBase : Value := .int 10
  churnScoreLimit : Value := .int 500
  hotspotScoreBase : Value := .int 10
  hotspotScoreLimit : Value := .int 500
deriving Inhabited

structure Filters where
  languages : Value := .list []
  extensions : Value := .list []
  filesOnly : Bool := false
  files : Value := .list []
  ignoredDirectories : Value := .list []
  ignoredFiles : Value := .list []
  ignoredDependencies : Value := .list []
  ignoredDependencyPatterns : List Matcher := []
  ignoredEntities : Value := .list []
  ignoredEntityPatterns : List Matcher := []
deriving Inhabited

structure Resolution where
  aliasesActive : Bool := false
  aliases : Value := .map []
  resolve : Value := .list []
  keep : Value := .list []
deriving Inhabited

structure History where
  directory : Value := .null
  active : Bool := false
  limit : Value := .int 150
  excludeMerges : Value := .bool true
deriving Inhabited

structure Settings where
  scans : Value := .list []
  name : Value := .null
  project : Value := .null
  source : Value := .null
  date : Value := .null
  version : Value := .null
  history : History := {}
  exports : Exports := {}
  radii : Radii := {}
  heatmaps : Heatmaps := {}
  filters : Filters := {}
  resolution : Resolution := {}
deriving Inhabited

namespace Filters

def occursIgnoringCase (s : List Char) : List Value → Except Fault Bool
  | [] => .ok false
  | .text part :: rest =>
    if Chars.contains (Text.lower part.toList) (Text.lower s) then .ok true
    else occursIgnoringCase s rest
  | .atom (.bytes _) :: _ => .error .wrongKind
  | _ :: _ => .error .noSuchPart

def occurs (s : List Char) : List Value → Except Fault Bool
  | [] => .ok false
  | .text part :: rest => if Chars.contains part.toList s then .ok true else occurs s rest
  | _ :: _ => .error .wrongKind

def ignoresDependency (f : Filters) (dependency : String) : Except Fault Bool := do
  if ← occursIgnoringCase dependency.toList (← f.ignoredDependencies.membersIfAny) then return true
  f.ignoredDependencyPatterns.anyM fun m => m.accepts dependency

def ignoresEntity (f : Filters) (entity : String) : Except Fault Bool := do
  if ← occurs entity.toList (← f.ignoredEntities.membersIfAny) then return true
  f.ignoredEntityPatterns.anyM fun m => m.accepts entity

/-- Whether a value is left out as a dependency. One that is no text cannot be held against anything. -/
def leavesOutDependency (f : Filters) : Value → Except Fault Bool
  | .text s => f.ignoresDependency s
  | _ => do
    if !(← f.ignoredDependencies.membersIfAny).isEmpty then throw .noSuchPart
    if !f.ignoredDependencyPatterns.isEmpty then throw .wrongKind
    return false

/-- Whether a value is left out as an entity. One that is no text may still hold one of the parts. -/
def leavesOutEntity (f : Filters) : Value → Except Fault Bool
  | .text s => f.ignoresEntity s
  | v => do
    if ← (← f.ignoredEntities.membersIfAny).anyM v.hasMember then return true
    if !f.ignoredEntityPatterns.isEmpty then throw .wrongKind
    return false

def allowsExtension (f : Filters) (ext : String) : Except Fault Bool := f.extensions.hasText ext

def ignoresDirectory (f : Filters) (name : String) : Except Fault Bool :=
  if f.ignoredDirectories.truthy then f.ignoredDirectories.hasText name else .ok false

def ignoresFile (f : Filters) (name : String) : Except Fault Bool := do
  occurs name.toList (← f.ignoredFiles.membersIfAny)

def allowsFile (f : Filters) (path : String) : Except Fault Bool :=
  if f.filesOnly then f.files.hasText path else .ok true

end Filters

def Settings.sourcePath (s : Settings) : Except Fault String :=
  match s.source with
  | .text path => .ok path
  | _ => .error .wrongKind

end CodeAtlas
