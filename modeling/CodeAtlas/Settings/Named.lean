import CodeAtlas.Settings

/-!
# Settings by name

Every setting has a name, under which it can be read and changed as a value.
-/

namespace CodeAtlas

structure Setting where
  name : String
  get : Settings → Value
  set : Value → Settings → Except Fault Settings
  configurable : Bool

namespace Setting

def plain (name : String) (get : Settings → Value) (set : Value → Settings → Settings) : Setting :=
  ⟨name, get, fun v s => .ok (set v s), true⟩

def hidden (name : String) (get : Settings → Value) (set : Value → Settings → Settings) : Setting :=
  { plain name get set with configurable := false }

def patterns (name : String) (get : Settings → List Matcher) (set : List Matcher → Settings → Settings) : Setting :=
  ⟨name, fun s => .ofStrings ((get s).map Matcher.source),
    fun v s => do return set (← (← v.members).mapM Matcher.ofValue) s, false⟩

def general : List Setting :=
  [plain "analysis_name" (fun s => s.name) fun v s => { s with name := v },
    plain "project_name" (fun s => s.project) fun v s => { s with project := v },
    plain "source_directory" (fun s => s.source) fun v s => { s with source := v },
    plain "scan_types" (fun s => s.scans) fun v s => { s with scans := v },
    hidden "analysis_date" (fun s => s.date) fun v s => { s with date := v },
    plain "git_directory" (fun s => s.history.directory) fun v s => { s with history.directory := v },
    plain "include_git_metrics" (fun s => .bool s.history.active) fun v s => { s with history.active := v.truthy },
    plain "git_commit_limit" (fun s => s.history.limit) fun v s => { s with history.limit := v },
    plain "git_exclude_merge_commits" (fun s => s.history.excludeMerges)
      fun v s => { s with history.excludeMerges := v },
    plain "Graphcodemapper_version" (fun s => s.version) fun v s => { s with version := v }]

def exporting : List Setting :=
  [plain "export_directory" (fun s => s.exports.directory) fun v s => { s with exports.directory := v },
    plain "export_graphml" (fun s => .bool s.exports.graphml) fun v s => { s with exports.graphml := v.truthy },
    plain "export_tabular_file" (fun s => .bool s.exports.tableFile)
      fun v s => { s with exports.tableFile := v.truthy },
    plain "export_tabular_console_overall" (fun s => .bool s.exports.tableConsoleOverall)
      fun v s => { s with exports.tableConsoleOverall := v.truthy },
    plain "export_tabular_console" (fun s => .bool s.exports.tableConsole)
      fun v s => { s with exports.tableConsole := v.truthy },
    plain "export_json" (fun s => .bool s.exports.json) fun v s => { s with exports.json := v.truthy },
    plain "export_d3" (fun s => .bool s.exports.forceGraph) fun v s => { s with exports.forceGraph := v.truthy }]

def weights : List Setting :=
  [plain "radius_fan_in" (fun s => s.radii.fanIn) fun v s => { s with radii.fanIn := v },
    plain "radius_fan_out" (fun s => s.radii.fanOut) fun v s => { s with radii.fanOut := v },
    plain "radius_louvain" (fun s => s.radii.louvain) fun v s => { s with radii.louvain := v },
    plain "radius_sloc" (fun s => s.radii.sloc) fun v s => { s with radii.sloc := v },
    plain "radius_number_of_methods" (fun s => s.radii.methods) fun v s => { s with radii.methods := v },
    hidden "radius_ws_complexity" (fun s => s.radii.whitespace) fun v s => { s with radii.whitespace := v },
    hidden "radius_file_code_churn" (fun s => s.radii.churn) fun v s => { s with radii.churn := v },
    hidden "radius_git_number_authors" (fun s => s.radii.authors) fun v s => { s with radii.authors := v },
    plain "heatmap_sloc_active" (fun s => s.heatmaps.slocActive) fun v s => { s with heatmaps.slocActive := v },
    plain "heatmap_fan_out_active" (fun s => s.heatmaps.fanOutActive)
      fun v s => { s with heatmaps.fanOutActive := v },
    plain "heatmap_sloc_weight" (fun s => s.heatmaps.slocWeight) fun v s => { s with heatmaps.slocWeight := v },
    plain "heatmap_fan_out_weight" (fun s => s.heatmaps.fanOutWeight)
      fun v s => { s with heatmaps.fanOutWeight := v },
    plain "heatmap_score_base" (fun s => s.heatmaps.scoreBase) fun v s => { s with heatmaps.scoreBase := v },
    plain "heatmap_score_limit" (fun s => s.heatmaps.scoreLimit) fun v s => { s with heatmaps.scoreLimit := v },
    hidden "heatmap_churn_active" (fun s => s.heatmaps.churnActive) fun v s => { s with heatmaps.churnActive := v },
    hidden "heatmap_ws_complexity_active" (fun s => s.heatmaps.whitespaceActive)
      fun v s => { s with heatmaps.whitespaceActive := v },
    hidden "heatmap_churn_weight" (fun s => s.heatmaps.churnWeight) fun v s => { s with heatmaps.churnWeight := v },
    hidden "heatmap_ws_weight" (fun s => s.heatmaps.whitespaceWeight)
      fun v s => { s with heatmaps.whitespaceWeight := v },
    hidden "heatmap_churn_score_base" (fun s => s.heatmaps.churnScoreBase)
      fun v s => { s with heatmaps.churnScoreBase := v },
    hidden "heatmap_churn_score_limit" (fun s => s.heatmaps.churnScoreLimit)
      fun v s => { s with heatmaps.churnScoreLimit := v },
    hidden "heatmap_hotspot_score_base" (fun s => s.heatmaps.hotspotScoreBase)
      fun v s => { s with heatmaps.hotspotScoreBase := v },
    hidden "heatmap_hotspot_score_limit" (fun s => s.heatmaps.hotspotScoreLimit)
      fun v s => { s with heatmaps.hotspotScoreLimit := v }]

def filtering : List Setting :=
  [plain "only_permit_languages" (fun s => s.filters.languages) fun v s => { s with filters.languages := v },
    plain "only_permit_file_extensions" (fun s => s.filters.extensions)
      fun v s => { s with filters.extensions := v },
    plain "only_permit_files_matching_absolute_path_available" (fun s => .bool s.filters.filesOnly)
      fun v s => { s with filters.filesOnly := v.truthy },
    plain "only_permit_files_matching_absolute_path" (fun s => s.filters.files)
      fun v s => { s with filters.files := v },
    plain "ignore_directories_containing" (fun s => s.filters.ignoredDirectories)
      fun v s => { s with filters.ignoredDirectories := v },
    plain "ignore_files_containing" (fun s => s.filters.ignoredFiles)
      fun v s => { s with filters.ignoredFiles := v },
    plain "ignore_dependencies_containing" (fun s => s.filters.ignoredDependencies)
      fun v s => { s with filters.ignoredDependencies := v },
    patterns "ignore_dependencies_matching" (fun s => s.filters.ignoredDependencyPatterns)
      fun ms s => { s with filters.ignoredDependencyPatterns := ms },
    plain "ignore_entities_containing" (fun s => s.filters.ignoredEntities)
      fun v s => { s with filters.ignoredEntities := v },
    patterns "ignore_entities_matching" (fun s => s.filters.ignoredEntityPatterns)
      fun ms s => { s with filters.ignoredEntityPatterns := ms },
    plain "import_aliases_available" (fun s => .bool s.resolution.aliasesActive)
      fun v s => { s with resolution.aliasesActive := v.truthy },
    plain "import_aliases" (fun s => s.resolution.aliases) fun v s => { s with resolution.aliases := v },
    plain "override_resolve_dependencies" (fun s => s.resolution.resolve)
      fun v s => { s with resolution.resolve := v },
    plain "override_do_not_resolve_dependencies" (fun s => s.resolution.keep)
      fun v s => { s with resolution.keep := v }]

def all : List Setting := general ++ exporting ++ weights ++ filtering

def computed : List String :=
  ["contains_code_metrics", "contains_graph_metrics", "entity_results", "file_results", "number_of_file_results",
    "number_of_entity_results", "existing_graph_representations"]

end Setting

namespace Settings

def setNamed (s : Settings) (name : String) (v : Value) : Except Fault Settings :=
  if Setting.computed.contains name then .error .noSuchPart
  else
    match Setting.all.find? fun e => e.name == name with
    | some e => e.set v s
    | none => .ok s

def setAll (s : Settings) : List (String × Value) → Settings × Except Fault Unit
  | [] => (s, .ok ())
  | (name, v) :: rest =>
    match s.setNamed name v with
    | .ok s => s.setAll rest
    | .error e => (s, .error e)

def configured (s : Settings) : List (String × Value) :=
  (Setting.all.filter Setting.configurable).map fun e => (e.name, e.get s)

def changed (s : Settings) : List (String × Value) :=
  (Setting.all.filter fun e => e.configurable && !(e.get s == e.get {})).map fun e => (e.name, e.get s)

end Settings

end CodeAtlas
