import CodeAtlas.Analysis.Work
import CodeAtlas.Metric.Communities
import CodeAtlas.Metric.FanInOut
import CodeAtlas.Metric.Methods
import CodeAtlas.Metric.SourceLines

/-!
# Calculation of metrics

A metric is calculated from the results of the scans that it is registered for, entities first. Its figures are then
collected by the analysis.
-/

namespace CodeAtlas

structure MetricRef where
  scope : ScanScope
  name : String
deriving Repr, DecidableEq

namespace Work

def metricAt (ref : MetricRef) : Work Metric := do
  match ((← analysis).metrics ref.scope).get? ref.name with
  | some m => return m
  | none => throw .noSuchKey

def setMetricAt (ref : MetricRef) (m : Metric) : Work Unit := modifyAnalysis fun a => a.setMetric ref.scope m

def modifyMetric (ref : MetricRef) (f : Metric → Metric) : Work Unit := do
  setMetricAt ref (f (← metricAt ref))

def assignRow (ref : MetricRef) (name : String) (row : List (String × Value)) : Work Unit :=
  modifyMetric ref fun m => m.assignRow name row

def mergeRow (ref : MetricRef) (name : String) (row : List (String × Value)) : Work Unit := do
  let (m, rows) := (← metricAt ref).mergeRow (← analysis).rows name row
  modifyAnalysis fun a => { a with rows := rows }
  setMetricAt ref m

def addOverall (ref : MetricRef) (figures : List (String × Value)) : Work Unit :=
  modifyMetric ref fun m => { m with overall := m.overall.insertMany figures }

def fileFigure (ref : MetricRef) (r : ScanResult) (key : String) (v : Value) : Work Unit := do
  modifyAnalysis fun a => a.recordFigure r.uniqueName key v
  assignRow ref r.uniqueName [(key, v)]

def subjectOf (r : ScanResult) : String := if r.isFile then "file" else "entity"

/-! ### Code -/

def countEach (ref : MetricRef) (figure : String) (count : ScanResult → Except Fault Nat) :
    List ScanResult → Work (List (ScanResult × Nat))
  | [] => pure []
  | r :: rest => do
    let n ← lift (count r)
    fileFigure ref r (figure ++ "-in-" ++ subjectOf r) (.int n)
    return (r, n) :: (← countEach ref figure count rest)

def countsOf (counts : List (ScanResult × Nat)) (files : Bool) : List Nat :=
  (counts.filter fun (r, _) => r.isFile == files).map Prod.snd

def methodsOf (r : ScanResult) : Except Fault Nat :=
  match r.language with
  | some l => .ok (Methods.count l r.words)
  | none => .error .noSuchPart

def sourceLinesOf (r : ScanResult) : Except Fault Nat :=
  match r.language with
  | some l => .ok (SourceLines.count l.comments r.words)
  | none => .error .wrongKind

def measureMethods (ref : MetricRef) (rs : List ScanResult) : Work Unit := do
  let counts ← countEach ref "number-of-methods" methodsOf rs
  [(true, "file"), (false, "entity")].forM fun (files, subject) => do
    let ns := countsOf counts files
    if !ns.isEmpty then
      addOverall ref [("avg-number-of-methods-in-" ++ subject, FanInOut.average (Decimal.total ns) ns.length)]

def measureSourceLines (ref : MetricRef) (rs : List ScanResult) : Work Unit := do
  let counts ← countEach ref "sloc" sourceLinesOf rs
  [(true, "file", "files"), (false, "entity", "entities")].forM fun (files, subject, subjects) => do
    let ns := countsOf counts files
    if !ns.isEmpty then
      addOverall ref
        [("avg-sloc-in-" ++ subject, FanInOut.average (Decimal.total ns) ns.length),
          ("total-sloc-in-" ++ subjects, .int (Decimal.total ns))]

def measureWhitespace (ref : MetricRef) (rs : List ScanResult) : Work Unit :=
  rs.forM fun r =>
    match r.source? with
    | some source => fileFigure ref r "ws-complexity-in-file" (Whitespace.complexity source)
    | none => throw .noSuchPart

/-! ### Terms -/

def modifyTexts (ref : MetricRef) (f : OrderedMap String String → OrderedMap String String) : Work Unit :=
  modifyMetric ref fun m =>
    match m.gauge with
    | .terms texts => { m with gauge := .terms (f texts) }
    | _ => m

def tagTexts (ref : MetricRef) (features : List String) :
    (names : List String) → (scores : List (List (Int × Value))) → Work Unit
  | [], _ => pure ()
  | _ :: _, [] => throw .outOfRange
  | name :: names, row :: scores => do
    mergeRow ref name (Terms.tags (← lift (Terms.namedScores features row)))
    tagTexts ref features names scores

def measureTerms (ref : MetricRef) (rs : List ScanResult) : Work Unit := do
  rs.forM fun r => do
    let text ← lift (Terms.textOf r)
    modifyTexts ref fun texts => texts.insert r.uniqueName text
  match (← session).terms with
  | .unfitted => log .metrics .error ("something went wrong, skipping metric " ++ MetricKind.terms.pretty)
  | .fitted features scores =>
    match (← metricAt ref).gauge with
    | .terms texts => tagTexts ref features texts.keys scores
    | _ => pure ()

/-! ### Graphs -/

def fileReport (ref : MetricRef) (r : FanInOut.Report) : Work Unit := do
  r.rows.forM fun (node, row) => mergeRow ref node row
  match r.overall with
  | some figures => addOverall ref figures
  | none => log .metrics .error "graph representation has no nodes, skipping average metrics"

def measureFanInOut (ref : MetricRef) (slots : GraphSlots) : Work Unit := do
  let (reports, failure) := FanInOut.reports none ((← analysis).slotViews slots)
  reports.forM (fileReport ref)
  match failure with
  | some e => throw e
  | none => pure ()

/-- What a node is called in the key of its community, if it is a result and if it is none. -/
def communitySubject? (kind : GraphKind) : Option ScanResult → Option String
  | some r => some (subjectOf r)
  | none =>
    match kind with
    | .entityDependency | .entityInheritance | .entityComplete => some "entity"
    | .fileDependency | .fileSystem => some "file"
    | .fileChangeCoupling => none

def communityKey (kind : GraphKind) (subject : String) : String := kind.name ++ "_louvain-modularity-in-" ++ subject

def communityKey? (kind : GraphKind) (r : Option ScanResult) : Option String :=
  (communitySubject? kind r).map (communityKey kind)

def fileCommunity (ref : MetricRef) (rs : Results) (kind : GraphKind) (node : String) (c : Nat) : Work Unit := do
  let result := rs.get? node
  match communityKey? kind result with
  | none => pure ()
  | some key =>
    if result.isSome then modifyAnalysis fun a => a.recordFigure node key (.int c)
    mergeRow ref node [(key, .int c)]

def communityFigures (v : GraphView) (labels : List (String × Nat)) : List (String × Value) :=
  match FanInOut.subject? v.kind with
  | none => []
  | some subject =>
    let key (figure : String) : String := "louvain-" ++ figure ++ "-" ++ subject ++ "-graph"
    [(key "communities", .int (Communities.count labels)),
      (key "modularity", Communities.shownModularity
        (Communities.modularity (Communities.undirected v.graph) (labels.map Prod.snd))),
      (key "biggest-communities", .map (Communities.shares labels))]

def measureCommunitiesBy (find : Digraph → Option (List (String × Nat))) (ref : MetricRef) (slots : GraphSlots)
    (rs : Results) : Work Unit := do
  ((← analysis).slotViews slots).forM fun v =>
    match find v.graph with
    | none => log .metrics .error ("something went wrong, skipping metric " ++ MetricKind.communities.name)
    | some labels => do
      (Communities.relabel labels).forM fun (node, c) => fileCommunity ref rs v.kind node c
      addOverall ref (communityFigures v labels)

def measureCommunities : MetricRef → GraphSlots → Results → Work Unit := measureCommunitiesBy Communities.labels?

/-! ### History -/

def measureHistory (ref : MetricRef) (state : HistoryState) (names : List String) : Work Unit := do
  let (state, r) := state.read (← settings) names (← session).commits
  modifyMetric ref fun m => { m with gauge := .history state }
  lift r
  addOverall ref [("commit-metrics", .list state.changes)]

/-! ### All metrics -/

def measure (ref : MetricRef) (rs : Results) : Work Unit := do
  match (← metricAt ref).gauge with
  | .methods => measureMethods ref rs.values
  | .sourceLines => measureSourceLines ref rs.values
  | .whitespace => measureWhitespace ref rs.values
  | .fanInOut slots => measureFanInOut ref slots
  | .communities slots => measureCommunities ref slots rs
  | .terms _ => measureTerms ref rs.values
  | .history state => measureHistory ref state rs.keys

def collectMetric (ref : MetricRef) : Work Unit := do
  let m ← metricAt ref
  let (m, rows) := m.collect (← analysis).rows
  modifyAnalysis fun a => { a with rows := rows }.collectOverall m.overall
  setMetricAt ref m

def calculateMetric (ref : MetricRef) : Work Unit := do
  let start := (← session).now
  [ScanScope.entities, .files].forM fun scope => do
    let a ← analysis
    if a.hasMetric scope ref.name then
      measure ref (a.resultsOf scope)
      collectMetric ref
  let runtime : Duration := ⟨(← session).now - start⟩
  modifyStatistics fun st => st.addFor ref.name .runtime (.duration runtime)

end Work

end CodeAtlas
