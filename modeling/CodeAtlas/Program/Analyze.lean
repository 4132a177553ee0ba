import CodeAtlas.Analysis.Export
import CodeAtlas.Analysis.FileSystem
import CodeAtlas.Analysis.Measure
import CodeAtlas.Configuration.Entry
import CodeAtlas.Program.Basic

/-!
# Carrying out analyses

An analysis goes through its source directory, hands each file to the scanner of its language, computes metrics and
graphs from the results and exports them. The scanners are emptied before the next analysis starts.
-/

namespace CodeAtlas

namespace Work

/-! ### Steps that need no scanner -/

def buildFileSystem : Work Unit := do
  let a ← lift ((← analysis).createGraph .fileSystem)
  modifyAnalysis fun _ => a
  surveyFiles

def putNode (node : FileNode) : Work Unit := do
  let a ← lift ((← analysis).createGraph .fileSystem)
  modifyAnalysis fun _ => a.fillGraph .fileSystem fun v => { v with fileNodes := v.fileNodes.insert node.name node }

def context : Work ScanContext := do
  let j ← get
  return ⟨j.analysis.id, j.analysis.settings, j.session.disk, j.session.knownModules⟩

/-- Lets a scanner work for the analysis. What it did before a failure is kept, by it and in the statistics. -/
def withScanner {α : Type} (scanner : Scanner) (x : ScanM α) : Work (Scanner × Except Fault α) := do
  let st := (← analysis).statistics
  match x ⟨scanner, st⟩ with
  | .ok v s => do
    modifyStatistics fun _ => s.statistics
    return (s.scanner, .ok v)
  | .error e s => do
    modifyStatistics fun _ => s.statistics
    return (s.scanner, .error e)

def takeImports (rs : Results) : Work Unit :=
  modifyAnalysis fun a =>
    { a with
      results := a.results.mapValues fun name r =>
        match rs.get? name with
        | some s => { r with imports := s.imports }
        | none => r }

def metricRefs (graph : Bool) : Work (List MetricRef) := do
  let a ← analysis
  return [ScanScope.files, .entities].flatMap fun scope =>
    ((a.metrics scope).entries.filter fun (_, m) => m.kind.isGraph == graph).map fun (name, _) => ⟨scope, name⟩

def calculateMetrics (graph : Bool) : Work Unit := do
  let what := if graph then "graph" else "code"
  log .analysis .start ("starting " ++ what ++ " metric calculation for analysis " ++ (← settings).name.display)
  (← metricRefs graph).forM fun ref => do
    log .analysis .info
      ("calculating " ++ what ++ " metric results for: " ++ (← metricAt ref).kind.pretty)
    calculateMetric ref
  log .analysis .done ("done calculating " ++ what ++ " metric results")

def calculateCodeMetrics : Work Unit := calculateMetrics false

def calculateGraphMetrics : Work Unit := calculateMetrics true

/-- Computes all metrics. The graphs are filled before those that need them, and get the figures afterwards. -/
def calculateAll : Work Unit := do
  if (← analysis).hasCodeMetrics then calculateCodeMetrics
  if (← analysis).hasGraphMetrics then
    step Analysis.fillGraphs
    calculateGraphMetrics
    step Analysis.addRowsToGraphs

def checkSource : Work Unit := do
  let s ← settings
  if s.source.isNull then throw (.failure "source directory is not set")
  if !(← lift ((← session).disk.holdsDir s.source)) then
    let message := "error in analysis " ++ s.name.display ++ ": source directory not found/ accessible: "
      ++ s.source.display
    log .analysis .error message
    throw (.notADirectory message)

def finish (start : Int) : Work Unit := do
  let runtime : Duration := ⟨(← session).now - start⟩
  modifyStatistics fun st => st.add .totalRuntime (.figure (.text runtime.display))
  exportAll
  log .analysis .done ("total runtime of analysis: " ++ runtime.display)

def startTimer : Work Unit := do
  let now := (← session).now
  let date := Value.text (DateTime.ofMicros now).monthFirst
  modifyAnalysis fun a => { a with started := some now, settings := { a.settings with date := date } }

def stopTimer : Work Unit := do
  let now := (← session).now
  modifyAnalysis fun a => { a with stopped := some now }
  match (← analysis).duration? with
  | some d => modifyStatistics fun st => st.add .analysisRuntime (.duration d)
  | none => modifyStatistics fun st => st.add .analysisRuntime (.figure .null)

end Work

namespace Run

/-! ### Files and entities -/

def scanner? (language : Language) : Run (Option Scanner) := do
  return (← get).scanners.find? fun s => s.language = language

def setScanner (s : Scanner) : Run Unit :=
  modify fun p => { p with scanners := p.scanners.map fun t => if t.language = s.language then s else t }

def scan {α : Type} (i : Nat) (scanner : Scanner) (x : ScanM α) : Run α := do
  let (s, r) ← onAnalysis i (Work.withScanner scanner x)
  setScanner s
  lift r

def scannerFor (i : Nat) (node : FileNode) : Run (Option Scanner) := do
  let permitted := (← onAnalysis i Work.settings).filters.languages
  match ← lift (Language.ofExtension? (Path.suffix node.name) permitted) with
  | none => return none
  | some language => scanner? language

def scanNode (i : Nat) (node : FileNode) : Run Unit := do
  if node.isDirectory then return
  match ← scannerFor i node with
  | none => return
  | some scanner =>
    match node.content with
    | none => throw (.failure ("file content is None for file: " ++ node.name))
    | some content =>
      let ctx ← onAnalysis i Work.context
      let _ ← scan i scanner (Scanner.scanFile ctx ⟨Path.name node.name, node.name, content⟩)
      match ← scanner? scanner.language with
      | some s => onAnalysis i (Work.modifyAnalysis fun a => a.addResults s.results)
      | none => return

def busyScanners : Run (List Language) := do
  return ((← get).scanners.filter fun s => !s.results.isEmpty).map Scanner.language

def eachBusy (f : Scanner → Run Unit) : Run Unit := do
  (← busyScanners).forM fun language => do
    match ← scanner? language with
    | some s => f s
    | none => return

def linkWith (i : Nat) (scanner : Scanner) : Run Unit := do
  let ctx ← onAnalysis i Work.context
  scan i scanner (Scanner.linkFiles ctx)
  match ← scanner? scanner.language with
  | some s => onAnalysis i (Work.takeImports s.results)
  | none => return

def scanFiles (i : Nat) : Run Unit := do
  let a ← onAnalysis i Work.analysis
  log .analysis .start ("starting file result creation in " ++ a.settings.name.display)
  let start := (← session).now
  match a.graphs.get? .fileSystem with
  | none => throw .noSuchPart
  | some view => view.fileNodes.values.forM (scanNode i)
  eachBusy (linkWith i)
  let runtime : Duration := ⟨(← session).now - start⟩
  onAnalysis i do
    let count := (← Work.analysis).fileResults.size
    Work.modifyStatistics fun st =>
      (st.add .extractedFileResults (.figure (.int count))).add .fileResultsCreationRuntime (.duration runtime)

def scanEntitiesWith (i : Nat) (scanner : Scanner) : Run Unit := do
  let ctx ← onAnalysis i Work.context
  scan i scanner (Scanner.scanEntities ctx)
  match ← scanner? scanner.language with
  | some s => onAnalysis i (Work.modifyAnalysis fun a => a.addResults s.results)
  | none => return

def scanEntities (i : Nat) : Run Unit := do
  log .analysis .start
    ("starting entity extraction in " ++ (← onAnalysis i Work.settings).name.display)
  eachBusy (scanEntitiesWith i)
  onAnalysis i do
    let count := (← Work.analysis).entityResults.size
    Work.modifyStatistics fun st => st.add .extractedEntityResults (.figure (.int count))

/-! ### Analyses -/

def collect : Run Unit :=
  modify fun p =>
    { p with collected := p.configuration.analyses.foldl (fun rs a => rs.update a.results) p.collected }

def clearScanners : Run Unit :=
  modify fun p => { p with scanners := p.scanners.map fun s => { s with results := ∅ } }

/-- Scans for what the settings ask for. Entities are found in files, so these are scanned first. -/
def scanAll (i : Nat) : Run Unit := do
  let scans := (← onAnalysis i Work.settings).scans
  let files ← lift (scans.hasText (Configuration.scanKey .files))
  let entities ← lift (scans.hasText (Configuration.scanKey .entities))
  if files || entities then scanFiles i
  if entities then scanEntities i

def analyze (i : Nat) : Run Unit := do
  let start := (← session).now
  onAnalysis i Work.checkSource
  onAnalysis i Work.buildFileSystem
  log .analysis .done "created the filesystem graph"
  scanAll i
  log .analysis .done "scanning complete"
  onAnalysis i Work.calculateAll
  collect
  onAnalysis i (Work.finish start)

def analyzeTimed (total : Nat) (i : Nat) : Run Unit := do
  log .analysis .info
    ("performing analysis " ++ Value.intText (i + 1) ++ "/" ++ Value.intText total ++ ": "
      ++ (← onAnalysis i Work.settings).name.display)
  onAnalysis i Work.startTimer
  analyze i
  onAnalysis i Work.stopTimer
  clearScanners

def analysisNames : List Analysis → Except Fault (List String)
  | [] => .ok []
  | a :: rest =>
    match a.settings.name with
    | .text name => do return name :: (← analysisNames rest)
    | _ => .error .wrongKind

def analyzeAll : Run Unit := do
  let c ← configuration
  log .analysis .start ("starting to analyze " ++ c.project.display)
  let names ← lift (analysisNames c.analyses)
  log .analysis .debug ("found the following analyses: " ++ Text.join ", " names)
  (List.range c.analyses.length).forM (analyzeTimed c.analyses.length)

end Run

end CodeAtlas
