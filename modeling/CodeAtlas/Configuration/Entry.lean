import CodeAtlas.Analysis.Basic
import CodeAtlas.Configuration.Keys
import CodeAtlas.Settings.Named

/-!
# An analysis from its entry in a document

Each part of an entry sets some settings or registers graphs and metrics. A metric of graphs takes those graphs
that were registered in front of it.
-/

namespace CodeAtlas.Configuration

def eachAt {α : Type} (entry : Value) (name : String) (f : α → Value → Except Fault α) (a : α) : Except Fault α :=
  match entry.field? name with
  | none => .ok a
  | some v => do (← v.members).foldlM f a

def setAt {α : Type} (entry : Value) (name : String) (set : Value → α → α) (a : α) : α :=
  match entry.field? name with
  | none => a
  | some v => set v a

/-! ### History -/

def readHistory (entry : Value) (h : History) : History :=
  let h := setAt entry "git_directory" (fun v h => { h with directory := v, active := true }) h
  let h := setAt entry "git_commit_limit" (fun v h => { h with limit := v }) h
  setAt entry "git_exclude_merge_commits" (fun v h => { h with excludeMerges := v }) h

/-! ### Exports and the browser -/

/-- The exports that are switched on by their names. The name of one of them occurs in that of another. -/
def exportSwitches : List (String × (Exports → Exports)) :=
  [("graphml", fun e => { e with graphml := true }),
    ("tabular_file", fun e => { e with tableFile := true }),
    ("tabular_console_overall", fun e => { e with tableConsoleOverall := true }),
    ("tabular_console", fun e => { e with tableConsole := true }),
    ("json", fun e => { e with json := true }),
    ("d3", fun e => { e with forceGraph := true })]

def switchExport (item : Value) (e : Exports) (switch : String × (Exports → Exports)) : Except Fault Exports := do
  return if ← item.hasText switch.1 then switch.2 e else e

def readExport (e : Exports) (item : Value) : Except Fault Exports := do
  let e ←
    if ← item.hasText "directory" then
      pure { e with directory := ← item.at? "directory" }
    else pure e
  exportSwitches.foldlM (switchExport item) e

def readBrowser (s : Settings) (item : Value) : Except Fault Settings :=
  Level.browser.keys.foldlM
    (fun s key => do
      if ← item.hasText key then s.setNamed key (← item.at? key) else return s)
    s

/-! ### Filters and aliases -/

def appendAt (entry : Value) (name : String) (v : Value) : Except Fault Value := do
  return .list (← eachAt entry name (fun xs x => .ok (xs ++ [x])) (← v.members))

def patternsAt (entry : Value) (name : String) (ms : List Matcher) : Except Fault (List Matcher) :=
  eachAt entry name (fun ms v => do return ms ++ [← Matcher.ofValue v]) ms

def readIgnored (entry : Value) (f : Filters) : Except Fault Filters := do
  let directories ← appendAt entry "ignore_directories_containing" f.ignoredDirectories
  let files ← appendAt entry "ignore_files_containing" f.ignoredFiles
  let dependencies ← appendAt entry "ignore_dependencies_containing" f.ignoredDependencies
  let dependencyPatterns ← patternsAt entry "ignore_dependencies_matching" f.ignoredDependencyPatterns
  let entities ← appendAt entry "ignore_entities_containing" f.ignoredEntities
  let entityPatterns ← patternsAt entry "ignore_entities_matching" f.ignoredEntityPatterns
  return { f with
    ignoredDirectories := directories
    ignoredFiles := files
    ignoredDependencies := dependencies
    ignoredDependencyPatterns := dependencyPatterns
    ignoredEntities := entities
    ignoredEntityPatterns := entityPatterns }

def readAliases (r : Resolution) : Value → Except Fault Resolution
  | .map es => .ok { r with
      aliasesActive := r.aliasesActive || !es.isEmpty
      aliases := .map (es.foldl (fun acc (k, v) => Value.insertEntry k v acc) r.aliases.entries) }
  | _ => .error .noSuchPart

def notAList : Fault :=
  .failure "❗️only_permit_files_matching_absolute_path must be a list of strings."

def readOnlyFiles (entry : Value) (f : Filters) : Except Fault Filters :=
  match entry.field? "only_permit_files_matching_absolute_path" with
  | none => .ok f
  | some (.list files) =>
    .ok { f with filesOnly := f.filesOnly || !files.isEmpty, files := .list files }
  | some _ => .error notAList

def readOverrides (entry : Value) (r : Resolution) : Except Fault Resolution := do
  let resolve ← appendAt entry "override_resolve_dependencies" r.resolve
  let keep ← appendAt entry "override_do_not_resolve_dependencies" r.keep
  return { r with resolve := resolve, keep := keep }

/-! ### Graphs and metrics -/

/-- How the name of a metric has to stand in a list of things to scan for. -/
inductive Mentioned where
  | exactly
  | within
deriving Repr, DecidableEq

def Mentioned.holds (m : Mentioned) (item : Value) (key : String) : Except Fault Bool :=
  match m with
  | .exactly => .ok (item == .text key)
  | .within => item.hasText key

def metricKeys : ScanScope → List (String × Mentioned × MetricKind)
  | .files =>
    [("number_of_methods", .exactly, .methods), ("source_lines_of_code", .exactly, .sourceLines),
      ("fan_in_out", .within, .fanInOut), ("louvain_modularity", .within, .communities),
      ("tfidf", .within, .terms), ("ws_complexity", .within, .whitespace), ("git", .within, .history)]
  | .entities =>
    [("number_of_methods", .exactly, .methods), ("source_lines_of_code", .exactly, .sourceLines),
      ("fan_in_out", .within, .fanInOut), ("louvain_modularity", .within, .communities),
      ("tfidf", .within, .terms)]

def graphKeys : ScanScope → List (String × GraphKind)
  | .files => [("dependency_graph", .fileDependency)]
  | .entities =>
    [("dependency_graph", .entityDependency), ("inheritance_graph", .entityInheritance),
      ("complete_graph", .entityComplete)]

def readGraph (item : Value) (a : Analysis) (graph : String × GraphKind) : Except Fault Analysis :=
  if item == .text graph.1 then a.createGraph graph.2 else .ok a

def readMetric (scope : ScanScope) (item : Value) (a : Analysis) (metric : String × Mentioned × MetricKind) :
    Except Fault Analysis := do
  let (key, mentioned, kind) := metric
  if ← mentioned.holds item key then
    let a := a.setMetric scope (← Metric.new kind a.settings a.graphKinds)
    return if kind = .history then { a with settings := { a.settings with history.active := true } } else a
  else return a

def readScanItem (scope : ScanScope) (a : Analysis) (item : Value) : Except Fault Analysis := do
  let a ← (graphKeys scope).foldlM (readGraph item) a
  (metricKeys scope).foldlM (readMetric scope item) a

def scanKey : ScanScope → String
  | .files => "file_scan"
  | .entities => "entity_scan"

def scansOf (entry : Value) : List String :=
  ([ScanScope.files, .entities].map scanKey).filter fun key => (entry.field? key).isSome

/-! ### Entries -/

def readSettings (entry : Value) (s : Settings) : Except Fault Settings := do
  let s := { s with history := readHistory entry s.history }
  let exports ← eachAt entry "export" readExport s.exports
  let s ← eachAt entry "appconfig" readBrowser { s with exports := exports }
  let filters ← readIgnored entry s.filters
  let resolution ← eachAt entry "import_aliases" readAliases s.resolution
  let filters ← readOnlyFiles entry filters
  let resolution ← readOverrides entry resolution
  return { s with filters := filters, resolution := resolution }

def readTarget (entry : Value) (s : Settings) : Except Fault Settings := do
  let name ← entry.at? "analysis_name"
  let source ← entry.at? "source_directory"
  let s := { s with scans := .ofStrings (scansOf entry), name := name, source := source }
  let f := setAt entry "only_permit_languages" (fun v f => { f with languages := v }) s.filters
  let f := setAt entry "only_permit_file_extensions" (fun v f => { f with extensions := v }) f
  return { s with filters := f }

def readEntry (id : Nat) (project : Value) (version : String) (entry : Value) : Except Fault Analysis := do
  let s ← readSettings entry { project := project, version := .text version }
  let a : Analysis := { id := id, settings := s }
  let a ← eachAt entry (scanKey .files) (readScanItem .files) a
  let a ← eachAt entry (scanKey .entities) (readScanItem .entities) a
  return { a with settings := ← readTarget entry a.settings }

end CodeAtlas.Configuration
