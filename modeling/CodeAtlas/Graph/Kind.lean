import CodeAtlas.Graph.Digraph

/-!
# Kinds of graphs

An analysis keeps at most one graph of each kind, and those of changes not at all.
-/

namespace CodeAtlas

inductive GraphKind where
  | fileDependency
  | entityDependency
  | entityInheritance
  | entityComplete
  | fileSystem
  | fileChangeCoupling
deriving Repr, DecidableEq, Inhabited

namespace GraphKind

def name : GraphKind → String
  | .fileDependency => "file_result_dependency_graph"
  | .entityDependency => "entity_result_dependency_graph"
  | .entityInheritance => "entity_result_inheritance_graph"
  | .entityComplete => "entity_result_complete_graph"
  | .fileSystem => "filesystem_graph"
  | .fileChangeCoupling => "file_result_change_coupling_graph"

def all : List GraphKind :=
  [.fileDependency, .entityDependency, .entityInheritance, .entityComplete, .fileSystem,
    .fileChangeCoupling]

def ofName? (s : String) : Option GraphKind := all.find? fun k => k.name == s

def kept : List GraphKind :=
  [.entityComplete, .entityDependency, .entityInheritance, .fileDependency, .fileSystem]

/-- Whether a figure of the given name belongs on the nodes of a graph. Graphs of files take no figures of
entities and the other way round, and each graph of entities leaves out those of its two siblings. -/
def admits (k : GraphKind) (figure : String) : Bool :=
  let without (words : List String) : Bool := words.all fun w => !Text.contains figure w
  match k with
  | .fileSystem | .fileDependency => without ["entity"]
  | .entityDependency => without ["file", "inheritance", "complete"]
  | .entityInheritance => without ["file", "dependency", "complete"]
  | .entityComplete => without ["file", "inheritance", "dependency"]
  | .fileChangeCoupling => false

end GraphKind

structure FileNode where
  isDirectory : Bool
  name : String
  content : Option String
deriving Repr, Inhabited

def FileNode.same (a b : FileNode) : Bool := a.name == b.name

/-- A graph of a kind; that of the file system also keeps the contents of files. -/
structure GraphView where
  kind : GraphKind
  graph : Digraph := .empty
  fileNodes : OrderedMap String FileNode := ∅
deriving Inhabited

end CodeAtlas
