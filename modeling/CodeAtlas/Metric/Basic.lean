import CodeAtlas.Graph.Build
import CodeAtlas.Metric.History

/-!
# Metrics

A metric computes figures for each result, in rows, and figures for all results together. It keeps them from one
calculation to the next. The first metric that hands a row for some result to the analysis shares that row with it
from then on.
-/

namespace CodeAtlas

inductive MetricKind where
  | methods
  | sourceLines
  | whitespace
  | fanInOut
  | communities
  | terms
  | history
deriving Repr, DecidableEq, Inhabited

namespace MetricKind

def name : MetricKind → String
  | .methods => "number-of-methods-metric"
  | .sourceLines => "source-lines-of-code-metric"
  | .whitespace => "whitespace-metric"
  | .fanInOut => "fan-in-out-metric"
  | .communities => "louvain-modularity-metric"
  | .terms => "t-f-i-d-f-metric"
  | .history => "git-metrics"

def pretty : MetricKind → String
  | .methods => "number of methods metric"
  | .sourceLines => "source lines of code metric"
  | .whitespace => "whitespace metric"
  | .fanInOut => "fan in out metric"
  | .communities => "louvain modularity metric"
  | .terms => "tfidf metric"
  | .history => "git metrics"

def all : List MetricKind :=
  [.methods, .sourceLines, .whitespace, .fanInOut, .communities, .terms, .history]

def short : MetricKind → String
  | .methods => "number_of_methods"
  | .sourceLines => "sloc"
  | .whitespace => "whitespace"
  | .fanInOut => "fan_in_out"
  | .communities => "louvain"
  | .terms => "tfidf"
  | .history => "git"

def ofShort? (s : String) : Option MetricKind := all.find? fun k => k.short == s

def isGraph : MetricKind → Bool
  | .fanInOut | .communities => true
  | _ => false

end MetricKind

inductive GraphSlot where
  | none
  | ofAnalysis (kind : GraphKind)
  | own (view : GraphView)
deriving Inhabited

structure GraphSlots where
  dependency : GraphSlot := .none
  inheritance : GraphSlot := .none
  complete : GraphSlot := .none
deriving Inhabited

namespace GraphSlots

/-- The slots of a metric, given the kinds of graphs that exist. Dependencies of entities go before those of files. -/
def ofKinds (kinds : List GraphKind) : GraphSlots :=
  let slot (k : GraphKind) : GraphSlot := if kinds.contains k then .ofAnalysis k else .none
  { dependency :=
      if kinds.contains .entityDependency then .ofAnalysis .entityDependency else slot .fileDependency
    inheritance := slot .entityInheritance
    complete := slot .entityComplete }

def list (s : GraphSlots) : List GraphSlot := [s.dependency, s.inheritance, s.complete]

def setOwn (s : GraphSlots) (name : String) (view : GraphView) : GraphSlots :=
  match name with
  | "dependency" => { s with dependency := .own view }
  | "inheritance" => { s with inheritance := .own view }
  | _ => { s with complete := .own view }

end GraphSlots

inductive Gauge where
  | methods
  | sourceLines
  | whitespace
  | fanInOut (slots : GraphSlots)
  | communities (slots : GraphSlots)
  | terms (texts : OrderedMap String String)
  | history (state : HistoryState)
deriving Inhabited

def Gauge.kind : Gauge → MetricKind
  | .methods => .methods
  | .sourceLines => .sourceLines
  | .whitespace => .whitespace
  | .fanInOut _ => .fanInOut
  | .communities _ => .communities
  | .terms _ => .terms
  | .history _ => .history

inductive MetricRow where
  | own (row : OrderedMap String Value)
  | shared
deriving Inhabited

structure Metric where
  gauge : Gauge
  rows : OrderedMap String MetricRow := ∅
  overall : OrderedMap String Value := ∅
deriving Inhabited

namespace Metric

def kind (m : Metric) : MetricKind := m.gauge.kind

def noHistory : String := "❗️ No git directory path found, please check in yaml config"

/-- A new metric. A history has to have a directory. -/
def new (kind : MetricKind) (settings : Settings) (kinds : List GraphKind) : Except Fault Metric :=
  match kind with
  | .methods => .ok { gauge := .methods }
  | .sourceLines => .ok { gauge := .sourceLines }
  | .whitespace => .ok { gauge := .whitespace }
  | .fanInOut => .ok { gauge := .fanInOut (.ofKinds kinds) }
  | .communities => .ok { gauge := .communities (.ofKinds kinds) }
  | .terms => .ok { gauge := .terms ∅ }
  | .history =>
    if settings.history.directory.isNull then .error (.failure noHistory)
    else
      .ok { gauge := .history
              { limit := settings.history.limit, excludeMerges := settings.history.excludeMerges } }

def setGraph (m : Metric) (slot : String) (view : GraphView) : Metric :=
  match m.gauge with
  | .fanInOut slots => { m with gauge := .fanInOut (slots.setOwn slot view) }
  | .communities slots => { m with gauge := .communities (slots.setOwn slot view) }
  | _ => m

def shownRows (m : Metric) (rows : Rows) : Rows :=
  m.rows.mapValues fun name row =>
    match row with
    | .own row => row
    | .shared => rows.getD name ∅

def assignRow (m : Metric) (name : String) (row : List (String × Value)) : Metric :=
  { m with rows := m.rows.insert name (.own (OrderedMap.ofList row)) }

/-- Adds figures to the row of a result; those of a shared row go to the analysis. -/
def mergeRow (m : Metric) (rows : Rows) (name : String) (row : List (String × Value)) : Metric × Rows :=
  match m.rows.get? name with
  | none => (m.assignRow name row, rows)
  | some (.own old) => ({ m with rows := m.rows.insert name (.own (old.insertMany row)) }, rows)
  | some .shared => (m, rows.insert name ((rows.getD name ∅).insertMany row))

/-- Hands one row over. A result that the analysis knows nothing about gets this row, shared; otherwise the figures
are added to the row of the analysis. -/
def handOver (acc : Metric × Rows) (entry : String × MetricRow) : Metric × Rows :=
  let (m, rows) := acc
  match entry.2 with
  | .shared => (m, rows)
  | .own row =>
    match rows.get? entry.1 with
    | some old => (m, rows.insert entry.1 (old.update row))
    | none => ({ m with rows := m.rows.insert entry.1 .shared }, rows.insert entry.1 row)

def collect (m : Metric) (rows : Rows) : Metric × Rows := m.rows.entries.foldl handOver (m, rows)

end Metric

end CodeAtlas
