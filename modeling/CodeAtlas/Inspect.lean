import CodeAtlas.Metric.Basic

/-!
# Parts by name

Results, graphs and metrics can be looked at part by part. Some parts are fixed; the others can be replaced by
anything, and parts of other names can be added.
-/

namespace CodeAtlas

inductive Part where
  | value (v : Value)
  | path (s : String)
  | analysis
  | result (name : String)
  | kind (k : GraphKind)
  | graph (g : Digraph)
  | view (k : GraphKind)
deriving Inhabited

inductive PartName where
  | uniqueName
  | analysis
  | fileName
  | absoluteName
  | displayName
  | scannedBy
  | language
  | words
  | imports
  | moduleName
  | metrics
  | entityName
  | inherits
  | parentFile
  | relativePath
  | absoluteDir
  | relativeDir
  | source
  | preprocessed
  | digraph
  | graphKind
  | fileNodes
  | metricName
  | prettyName
  | rows
  | overall
  | parentResult
  | dependencyGraph
  | inheritanceGraph
  | completeGraph
  | other (name : String)
deriving Repr, DecidableEq, Inhabited

namespace PartName

def names : List (String × PartName) :=
  [("unique_name", .uniqueName), ("analysis", .analysis), ("scanned_file_name", .fileName),
    ("absolute_name", .absoluteName), ("display_name", .displayName), ("scanned_by", .scannedBy),
    ("scanned_language", .language), ("scanned_tokens", .words), ("scanned_import_dependencies", .imports),
    ("module_name", .moduleName), ("metrics", .metrics), ("entity_name", .entityName),
    ("scanned_inheritance_dependencies", .inherits), ("parent_file_result", .parentFile),
    ("relative_file_path_to_analysis", .relativePath), ("absolute_dir_path", .absoluteDir),
    ("relative_analysis_path", .relativeDir), ("source", .source), ("preprocessed_source", .preprocessed),
    ("digraph", .digraph), ("graph_type", .graphKind), ("filesystem_nodes", .fileNodes),
    ("metric_name", .metricName), ("pretty_metric_name", .prettyName), ("local_data", .rows),
    ("overall_data", .overall), ("parent_result", .parentResult),
    ("dependency_graph_representation", .dependencyGraph),
    ("inheritance_graph_representation", .inheritanceGraph), ("complete_graph_representation", .completeGraph)]

def ofName (s : String) : PartName := (names.lookup s).getD (.other s)

end PartName

inductive Subject where
  | result (r : ScanResult)
  | graph (v : GraphView)
  | codeMetric
  | graphMetric (slots : GraphSlots)
deriving Inhabited

namespace Subject

def text (s : String) : Option Part := some (.value (.text s))

def commonPart? (r : ScanResult) : PartName → Option Part
  | .uniqueName => text r.uniqueName
  | .analysis => some .analysis
  | .fileName => text r.fileName
  | .absoluteName => text r.absoluteName
  | .displayName => text r.displayName
  | .scannedBy => text r.scannedBy
  | .language => some (.value ((r.language.map fun l => Value.text l.name).getD .null))
  | .words => some (.value (.ofStrings r.words))
  | .imports => some (.value (.ofStrings r.imports))
  | .moduleName => text r.moduleName
  | .metrics => some (.value (.map (r.metrics.entries.map fun (k, v) => (.text k, v))))
  | _ => none

def filePart? (d : FileDetails) : PartName → Option Part
  | .relativePath => text d.relativePath
  | .absoluteDir => some (.path d.absoluteDir)
  | .relativeDir => some (.path d.relativeDir)
  | .source => text d.source
  | .preprocessed => text d.preprocessed
  | _ => none

/-- An entity has a source, which is never known. -/
def entityPart? (d : EntityDetails) : PartName → Option Part
  | .entityName => text d.entityName
  | .inherits => some (.value (.ofStrings d.inherits))
  | .parentFile => some ((d.parent.map Part.result).getD (.value .null))
  | .source => some (.value .null)
  | _ => none

def slotPart : GraphSlot → Part
  | .none => .value .null
  | .ofAnalysis k => .view k
  | .own v => .view v.kind

def metricPart? (words kebab : String) : PartName → Option Part
  | .analysis => some .analysis
  | .metricName => text kebab
  | .prettyName => text words
  | .rows | .overall => some (.value (.map []))
  | _ => none

def part? (s : Subject) (name : PartName) : Option Part :=
  match s with
  | .result r =>
    (commonPart? r name).or
      (match r.details with
      | .file d => filePart? d name
      | .entity d => entityPart? d name)
  | .graph v =>
    match name with
    | .digraph => some (.graph v.graph)
    | .graphKind => some (.kind v.kind)
    | .fileNodes => some (.value (.map []))
    | _ => none
  | .codeMetric => metricPart? "code metric" "code-metric" name
  | .graphMetric slots =>
    match name with
    | .dependencyGraph => some (slotPart slots.dependency)
    | .inheritanceGraph => some (slotPart slots.inheritance)
    | .completeGraph => some (slotPart slots.complete)
    | _ => metricPart? "graph metric" "graph-metric" name

def isFixed (s : Subject) (name : PartName) : Bool :=
  match s with
  | .result r =>
    [.analysis, .fileName, .scannedBy, .language, .words, .source].contains name
      || (r.isFile && [.relativeDir, .preprocessed].contains name)
  | .graph _ => name == .graphKind
  | .codeMetric | .graphMetric _ =>
    [.analysis, .metricName, .prettyName, .rows, .overall].contains name

end Subject

structure Inspected where
  subject : Subject
  replaced : OrderedMap PartName Part := ∅
deriving Inhabited

namespace Inspected

def part (i : Inspected) (name : PartName) : Except Fault Part :=
  match (i.replaced.get? name).or (i.subject.part? name) with
  | some p => .ok p
  | none => .error .noSuchPart

def replace (i : Inspected) (name : PartName) (p : Part) : Except Fault Inspected :=
  if i.subject.isFixed name then .error .noSuchPart
  else .ok { i with replaced := i.replaced.insert name p }

def value (i : Inspected) (name : PartName) : Value :=
  match i.part name with
  | .ok (.value v) => v
  | _ => .null

def describe? (i : Inspected) : Option String :=
  match i.subject with
  | .result r =>
    some (r.describeWith (i.value .uniqueName) (i.value .entityName) (i.value .imports) (i.value .inherits)
      (i.value .moduleName) (i.value .metrics))
  | _ => none

def addDependencies (i : Inspected) (rs : Results) : Except Fault Inspected := do
  match ← i.part .digraph with
  | .graph g => i.replace .digraph (.graph (g.addDependencies rs))
  | _ => throw .noSuchPart

end Inspected

end CodeAtlas
