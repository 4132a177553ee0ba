import CodeAtlas.Analysis.Work
import CodeAtlas.Disk
import CodeAtlas.Export.ForceGraph
import CodeAtlas.Export.GraphMl
import CodeAtlas.Text.Encoding

/-!
# Exports of an analysis

What an analysis has collected is written to files in the export directory and to the console, in a fixed order:
graphs as markup, the page for the browser, tables in a file, the interchange document, tables on the console.
-/

namespace CodeAtlas

def exportName (what : String) : String := "/graphcodemapper-" ++ what

namespace Work

def writeBytes (path : String) (bytes : ByteArray) : Work Unit := do
  let disk ← lift ((← session).disk.write path bytes)
  modifySession fun s => { s with disk := disk }

/-- Writes the pieces of a file up to the first one that has no bytes, then fails if there should have been more. -/
def writePieces (path : String) (content : List String × Except Fault Unit) : Work Unit := do
  let (text, r) := Text.encodable content.1
  writeBytes path text.toUTF8
  lift r
  lift content.2

def writeFile (path text : String) : Work Unit := writePieces path ([text], .ok ())

def writeOrEmpty (path : String) (text : Except Fault String) : Work Unit :=
  match text with
  | .ok text => writeFile path text
  | .error e => writePieces path ([], .error e)

def tryDisk (f : Disk → Except Fault Disk) : Work Unit := do
  match f (← session).disk with
  | .ok disk => modifySession fun s => { s with disk := disk }
  | .error _ => log .app .error "could not prepare the web app"

def exportMarkup (dir : String) : Work Unit := do
  (← analysis).graphList.forM fun v =>
    writeOrEmpty (dir ++ exportName (v.kind.name ++ ".graphml")) (GraphMl.document v.graph)

def exportTables (dir : String) (s : Summary) : Work Unit :=
  writePieces (dir ++ exportName "statistics-metrics.txt") s.filePieces

def exportDocument (dir : String) (s : Summary) : Work Unit :=
  if s.isEmpty then pure ()
  else writeOrEmpty (dir ++ exportName "statistics-and-metrics.json") (s.document.map Value.json)

def exportConsole (s : Summary) : Work Unit := do
  let (tables, r) := s.consoleTables
  tables.forM fun t => print t.draw
  lift r

/-! ### The page for the browser -/

def copyPage (dir : String) : Work Unit := do
  let s ← session
  let target := dir ++ "/html"
  if s.disk.isDir target then tryDisk fun d => d.removeDir target
  tryDisk fun d => d.copyDir (s.home ++ "/output/html") target

def radiiValue (r : Radii) : Value :=
  let fans (way : String) (v : Value) : List (String × Value) :=
    ["dependency", "inheritance", "complete"].map fun g => ("metric_fan_" ++ way ++ "_" ++ g ++ "_graph", v)
  let louvain := ["dependency_graph_louvain_modularity_in_entity", "inheritance_graph_louvain_modularity_in_entity",
    "complete_graph_louvain_modularity_in_entity", "dependency_graph_louvain_modularity_in_file"].map
      fun key => ("metric_entity_result_" ++ key, r.louvain)
  Summary.object (fans "in" r.fanIn ++ fans "out" r.fanOut ++ louvain ++
    [("metric_sloc_in_file", r.sloc), ("metric_sloc_in_entity", r.sloc),
      ("metric_number_of_methods_in_file", r.methods), ("metric_number_of_methods_in_entity", r.methods),
      ("metric_ws_complexity_in_file", r.whitespace), ("metric_git_ws_complexity", r.whitespace),
      ("metric_git_code_churn", r.churn), ("metric_git_sloc", r.sloc),
      ("metric_git_number_authors", r.authors)])

def heatmapValue (active weights : List (String × Value)) (limit base : Value) : Value :=
  Summary.object
    [("metrics", Summary.object [("active", Summary.object active), ("weights", Summary.object weights)]),
      ("score", Summary.object [("limit", limit), ("base", base)])]

def pageSettings (a : Analysis) : Value :=
  let s := a.settings
  let h := s.heatmaps
  Summary.object
    [("project_name", s.project), ("analysis_name", s.name), ("analysis_date", s.date),
      ("Graphcodemapper_version", s.version),
      ("metrics", Summary.object [("radius_multiplication", radiiValue s.radii)]),
      ("heatmap", heatmapValue [("sloc", h.slocActive), ("fan_out", h.fanOutActive)]
        [("sloc", h.slocWeight), ("fan_out", h.fanOutWeight)] h.scoreLimit h.scoreBase),
      ("churn_heatmap", heatmapValue [("churn", h.churnActive)] [("churn", h.churnWeight)]
        h.churnScoreLimit h.churnScoreBase),
      ("hotspot_heatmap", heatmapValue [("churn", h.churnActive), ("ws_complexity", h.whitespaceActive)]
        [("churn", h.churnWeight), ("ws_complexity", h.whitespaceWeight)]
        h.hotspotScoreLimit h.hotspotScoreBase)]

def pageVariable (overall : Value) (name lead : String) : Except Fault String := do
  if ← overall.hasText name then return lead ++ (← overall.at? name).json else return ""

def historyScript (a : Analysis) (overall : Value) : Except Fault String := do
  if a.settings.history.active && !overall.isNull then
    let commits ← pageVariable overall "commit-metrics" "let commit_metrics = "
    return commits ++ (← pageVariable overall "git-metrics" "\nlet git_metrics = ")
  else return ""

def exportForceGraph (dir : String) (statistics overall : Value) (v : GraphView) : Work String := do
  writeFile (dir ++ exportName (v.kind.name ++ "-data.json")) (ForceGraph.graphValue v.graph).json
  lift (ForceGraph.graphScript v statistics overall)

def exportForceGraphs (dir : String) (statistics overall : Value) : List GraphView → Work String
  | [] => pure ""
  | v :: rest => do
    let script ← exportForceGraph dir statistics overall v
    return script ++ (← exportForceGraphs dir statistics overall rest)

def exportPageDataOf (dir : String) (statistics overall : Value) (views : List GraphView) : Work Unit := do
  let a ← analysis
  let graphs ← exportForceGraphs dir statistics overall views
  match a.settings.name with
  | .text name =>
    let script := graphs ++ "const analysis_name = '" ++ name ++ "'\n\n"
      ++ "let analysis_config = " ++ (← lift (pageSettings a).toJson) ++ "\n" ++ (← lift (historyScript a overall))
    writeFile (dir ++ "/html/resources/js/graphcodemapper_data.js") (Text.replace script "-" "_")
  | _ => throw .wrongKind

/-! ### All exports -/

def exportDirectory : Work Value := do
  match (← settings).exports.directory with
  | .null =>
    let dir := Value.text (FileTree.pathOf (← session).disk.cwd)
    modifyAnalysis fun a => { a with settings := { a.settings with exports.directory := dir } }
    return dir
  | dir => return dir

def checkedDirectory (dir : Value) : Work String := do
  let missing : Work String := do
    let message := "export directory not found/ accessible: " ++ dir.display
    log .analysis .error message
    throw (.notADirectory message)
  if ← lift ((← session).disk.holdsDir dir) then
    match dir with
    | .text path => return path
    | _ => throw .wrongKind
  else missing

def exportAll : Work Unit := do
  let dir ← checkedDirectory (← exportDirectory)
  let a ← analysis
  let e := a.settings.exports
  let name := if a.settings.name.truthy then a.settings.name else .text "unnamed_anaylsis"
  let rows := .ofMap (a.rows.mapValues fun _ row => .ofMap row)
  let summary : Summary := ⟨name, .ofMap a.statistics.shown, .ofMap a.overall, rows⟩
  if e.graphml then exportMarkup dir
  if e.forceGraph then
    copyPage dir
    exportPageDataOf dir summary.statistics summary.overall a.graphList
  if e.tableFile then exportTables dir summary
  if e.json then exportDocument dir summary
  if e.tableConsoleOverall then exportConsole { summary with rows := .null }
  else if e.tableConsole then exportConsole summary
  let resolved := ((← session).disk.resolve? dir).getD dir
  log .analysis .done ("all your generated/exported data can be found here: " ++ resolved)
  if e.forceGraph then
    let page := "file://" ++ resolved ++ "/html/graphcodemapper.html"
    modifySession fun s => { s with clipboard := s.clipboard ++ [page] }
    log .analysis .done ("copy the following path to your browser and start your web app: 👉 " ++ page)
    log .analysis .done "... also tried to copy the link to your pasteboard, just try to paste it in your browser 🚀"

end Work

end CodeAtlas
