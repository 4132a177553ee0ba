import CodeAtlas.Metric.Basic
import CodeAtlas.Statistics

/-!
# Analyses

An analysis has settings and metrics, and collects what a scan of its source directory yields: results, graphs and
figures.
-/

namespace CodeAtlas

inductive ScanScope where
  | files
  | entities
deriving Repr, DecidableEq, Inhabited

structure Analysis where
  id : Nat := 0
  settings : Settings := {}
  fileMetrics : OrderedMap String Metric := ∅
  entityMetrics : OrderedMap String Metric := ∅
  results : Results := ∅
  scannedNames : List String := []
  filesIn : OrderedMap String (List String) := ∅
  rows : Rows := ∅
  overall : OrderedMap String Value := ∅
  graphs : OrderedMap GraphKind GraphView := ∅
  started : Option Int := none
  stopped : Option Int := none
  statistics : Statistics := .empty
deriving Inhabited

namespace Analysis

/-! ### Metrics -/

def metrics (a : Analysis) : ScanScope → OrderedMap String Metric
  | .files => a.fileMetrics
  | .entities => a.entityMetrics

def setMetric (a : Analysis) (scope : ScanScope) (m : Metric) : Analysis :=
  match scope with
  | .files => { a with fileMetrics := a.fileMetrics.insert m.kind.name m }
  | .entities => { a with entityMetrics := a.entityMetrics.insert m.kind.name m }

def hasMetric (a : Analysis) (scope : ScanScope) (name : String) : Bool :=
  (a.metrics scope).contains (String.ofList (Text.lower name.toList))

def hasMetrics (a : Analysis) : Bool := !a.entityMetrics.isEmpty || !a.fileMetrics.isEmpty

def allMetrics (a : Analysis) : List Metric := a.fileMetrics.values ++ a.entityMetrics.values

def hasGraphMetrics (a : Analysis) : Bool := a.allMetrics.any fun m => m.kind.isGraph

def hasCodeMetrics (a : Analysis) : Bool := a.allMetrics.any fun m => !m.kind.isGraph

/-! ### Results and figures -/

def addResults (a : Analysis) (rs : Results) : Analysis := { a with results := a.results.update rs }

def fileResults (a : Analysis) : Results := Results.files a.results

def entityResults (a : Analysis) : Results := Results.entities a.results

def resultsOf (a : Analysis) : ScanScope → Results
  | .files => a.fileResults
  | .entities => a.entityResults

def byEntityName? (a : Analysis) (name : String) : Option ScanResult :=
  a.results.values.find? fun r => r.entity?.any fun d => d.entityName == name

def byUniqueName? (a : Analysis) (name : String) : Option ScanResult :=
  a.results.values.find? fun r => r.uniqueName == name

def collectRows (a : Analysis) (rows : Rows) : Analysis :=
  { a with
    rows := rows.entries.foldl
      (fun acc (name, row) => acc.insert name ((acc.getD name ∅).update row)) a.rows }

def collectOverall (a : Analysis) (overall : OrderedMap String Value) : Analysis :=
  { a with overall := a.overall.update overall }

def recordFigure (a : Analysis) (result key : String) (v : Value) : Analysis :=
  { a with results := a.results.modify result fun r => { r with metrics := r.metrics.insert key v } }

/-! ### Graphs -/

/-- Makes an empty graph, unless there is one of that kind. Graphs of changes are not kept. -/
def createGraph (a : Analysis) (kind : GraphKind) : Except Fault Analysis :=
  if GraphKind.kept.contains kind then .ok { a with graphs := a.graphs.insertNew kind (.new kind) }
  else .error .noSuchKey

def graphList (a : Analysis) : List GraphView := GraphKind.kept.filterMap a.graphs.get?

def graphKinds (a : Analysis) : List GraphKind := GraphKind.kept.filter a.graphs.contains

def setGraph (a : Analysis) (v : GraphView) : Analysis := { a with graphs := a.graphs.insert v.kind v }

def fillGraph (a : Analysis) (kind : GraphKind) (f : GraphView → GraphView) : Analysis :=
  match a.graphs.get? kind with
  | some v => a.setGraph (f v)
  | none => a

def fillSimpleGraphs (a : Analysis) : Analysis :=
  let files := a.fileResults
  let entities := a.entityResults
  ((a.fillGraph .entityDependency fun v => v.addDependencies entities)
    |>.fillGraph .entityInheritance fun v => (v.addInheritance entities.values).1)
    |>.fillGraph .fileDependency fun v => v.addDependencies files

def fillGraphs (a : Analysis) : Analysis × Except Fault Unit :=
  let a := a.fillSimpleGraphs
  match a.graphs.get? .entityComplete with
  | none => (a, .ok ())
  | some v =>
    match a.graphs.get? .entityDependency, a.graphs.get? .entityInheritance with
    | some d, some i => (a.setGraph { v with graph := d.graph.compose i.graph }, .ok ())
    | _, _ => (a, .error .noSuchKey)

def addRowsTo (a : Analysis) : List GraphView → Analysis × Except Fault Unit
  | [] => (a, .ok ())
  | v :: rest =>
    match v.addFigures a.rows with
    | (v, .ok ()) => (a.setGraph v).addRowsTo rest
    | (v, .error e) => (a.setGraph v, .error e)

def addRowsToGraphs (a : Analysis) : Analysis × Except Fault Unit := a.addRowsTo a.graphList

/-! ### Time -/

def duration? (a : Analysis) : Option Duration :=
  match a.started, a.stopped with
  | some s, some t => some ⟨t - s⟩
  | _, _ => none

def slotView? (a : Analysis) : GraphSlot → Option GraphView
  | .none => none
  | .ofAnalysis kind => a.graphs.get? kind
  | .own v => some v

def slotViews (a : Analysis) (s : GraphSlots) : List GraphView := s.list.filterMap a.slotView?

end Analysis

end CodeAtlas
