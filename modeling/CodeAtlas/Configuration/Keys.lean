import CodeAtlas.Pattern.Match
import CodeAtlas.Pattern.Syntax
import CodeAtlas.Value.Basic

/-!
# Keys of a configuration document

The keys that may stand on each level of a document. A key is recognised in upper and in lower case.
-/

namespace CodeAtlas.Configuration

inductive Level where
  | project
  | logLevel
  | analysis
  | fileScan
  | entityScan
  | exports
  | browser
deriving Repr, DecidableEq

namespace Level

def keys : Level → List String
  | .project => ["project_name", "loglevel", "analyses"]
  | .logLevel => ["debug", "info", "error"]
  | .analysis =>
    ["analysis_name", "source_directory", "git_directory", "git_commit_limit",
      "git_exclude_merge_commits", "only_permit_languages", "only_permit_file_extensions",
      "only_permit_files_matching_absolute_path", "ignore_directories_containing",
      "ignore_files_containing", "ignore_dependencies_containing", "ignore_dependencies_matching",
      "ignore_entities_containing", "ignore_entities_matching", "override_resolve_dependencies",
      "override_do_not_resolve_dependencies", "import_aliases", "file_scan", "entity_scan", "export",
      "appconfig"]
  | .fileScan =>
    ["git", "ws_complexity", "number_of_methods", "source_lines_of_code", "dependency_graph",
      "fan_in_out", "louvain_modularity", "tfidf"]
  | .entityScan =>
    ["number_of_methods", "source_lines_of_code", "number_of_entities", "dependency_graph",
      "inheritance_graph", "complete_graph", "fan_in_out", "louvain_modularity", "tfidf"]
  | .exports =>
    ["directory", "graphml", "tabular_file", "tabular_console", "tabular_console_overall", "json", "d3"]
  | .browser =>
    ["radius_fan_in", "radius_fan_out", "radius_louvain", "radius_sloc", "radius_number_of_methods",
      "heatmap_sloc_active", "heatmap_fan_out_active", "heatmap_sloc_weight", "heatmap_fan_out_weight",
      "heatmap_score_base", "heatmap_score_limit"]

def name : Level → String
  | .project => "project"
  | .logLevel => "project_value"
  | .analysis => "analysis"
  | .fileScan => "file_scan"
  | .entityScan => "entity_scan"
  | .exports => "export"
  | .browser => "appconfig"

def all : List Level := [.project, .logLevel, .analysis, .fileScan, .entityScan, .exports, .browser]

def ofName? (s : String) : Option Level := all.find? fun l => l.name == s

end Level

/-- The upper-case form of a character as far as that is ASCII; other characters stay. -/
def upperAscii (c : Char) : List Char :=
  if 'a' ≤ c && c ≤ 'z' then [Char.ofNat (c.toNat - 32)]
  else if c == 'ı' then ['I']
  else if c == 'ſ' then ['S']
  else if c == 'ß' then ['S', 'S']
  else if c == 'ﬀ' then ['F', 'F']
  else if c == 'ﬁ' then ['F', 'I']
  else if c == 'ﬂ' then ['F', 'L']
  else if c == 'ﬃ' then ['F', 'F', 'I']
  else if c == 'ﬄ' then ['F', 'F', 'L']
  else if c == 'ﬅ' || c == 'ﬆ' then ['S', 'T']
  else [c]

def upper (s : String) : String := String.ofList (s.toList.flatMap upperAscii)

def Level.allows (l : Level) (key : String) : Bool :=
  l.keys.any fun k => upper k == upper key

def addNames (acc names : List String) : List String :=
  names.foldl (fun acc n => if acc.contains n then acc else acc ++ [n]) acc

def allKeys : List String :=
  [Level.project, .analysis, .entityScan, .fileScan, .exports].foldl
    (fun acc l => addNames acc (l.keys.map upper)) []

def optionsPattern : Pattern.Node :=
  (Pattern.Node.parse "(.+)\\((.*)\\)$").toOption.getD .empty

/-- The options in brackets after a value, divided by commas; `none` if there are no brackets or nothing
stands between them. -/
def options? (value : String) : Option (List String) :=
  match optionsPattern.search? value.toList with
  | none => none
  | some (_, found) =>
    match found.groups.lookup 2 with
    | none => none
    | some [] => none
    | some text => some ((Chars.splitOn ',' text).map fun piece => String.ofList (Chars.trim piece))

inductive Side where
  | keys
  | values
deriving Repr, DecidableEq

def Side.ofName? : String → Option Side
  | "key" => some .keys
  | "value" => some .values
  | _ => none

def isScalar : Value → Bool
  | .list _ | .map _ => false
  | _ => true

mutual

/-- All keys, or all plain values, in a document, outer before inner. Without a side, the first entry fails. -/
def listing (side : Option Side) : Value → Except Fault (List Value)
  | .map es => listingEntries side es
  | .list xs => listingItems side xs
  | _ => .ok []

def listingItems (side : Option Side) : List Value → Except Fault (List Value)
  | [] => .ok []
  | x :: xs => do return (← listing side x) ++ (← listingItems side xs)

def listingEntries (side : Option Side) : List (Value × Value) → Except Fault (List Value)
  | [] => .ok []
  | (k, v) :: es => do
    let here ← match side with
      | some .keys => pure [k]
      | some .values => pure (if isScalar v then [v] else [])
      | none => throw .badValue
    return here ++ (← listing side v) ++ (← listingEntries side es)

end

end CodeAtlas.Configuration
