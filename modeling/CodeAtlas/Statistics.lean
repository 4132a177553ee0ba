import CodeAtlas.OrderedMap
import CodeAtlas.Value.Written

/-!
# Statistics of an analysis

Figures and durations in the order in which they were first recorded.
-/

namespace CodeAtlas

inductive Statistic where
  | figure (v : Value)
  | duration (d : Duration)
deriving Inhabited

inductive StatisticKey where
  | scannedFiles
  | skippedFiles
  | scanningRuntime
  | totalRuntime
  | analysisDate
  | fileResultsCreationRuntime
  | entityResultsCreationRuntime
  | analysisRuntime
  | metricCalculationRuntime
  | extractedFileResults
  | extractedEntityResults
  | parsingHits
  | parsingMisses
  | runtime
deriving Repr, DecidableEq

namespace StatisticKey

def name : StatisticKey → String
  | .scannedFiles => "scanned_files"
  | .skippedFiles => "skipped_files"
  | .scanningRuntime => "scanning_runtime"
  | .totalRuntime => "total_runtime"
  | .analysisDate => "analysis_date"
  | .fileResultsCreationRuntime => "file_results_creation_runtime"
  | .entityResultsCreationRuntime => "entity_results_creation_runtime"
  | .analysisRuntime => "analysis_runtime"
  | .metricCalculationRuntime => "metric_calculation_runtime"
  | .extractedFileResults => "extracted_file_results"
  | .extractedEntityResults => "extracted_entity_results"
  | .parsingHits => "parsing_hits"
  | .parsingMisses => "parsing_misses"
  | .runtime => "runtime"

def all : List StatisticKey :=
  [.scannedFiles, .skippedFiles, .scanningRuntime, .totalRuntime, .analysisDate,
    .fileResultsCreationRuntime, .entityResultsCreationRuntime, .analysisRuntime,
    .metricCalculationRuntime, .extractedFileResults, .extractedEntityResults, .parsingHits,
    .parsingMisses, .runtime]

def ofName? (s : String) : Option StatisticKey := all.find? fun k => k.name == s

end StatisticKey

def Statistic.succ : Statistic → Except Fault Statistic
  | .figure (.int n) => .ok (.figure (.int (n + 1)))
  | .figure (.bool b) => .ok (.figure (.int (if b then 2 else 1)))
  | .figure (.float x) => .ok (.figure (.float (x + 1)))
  | _ => .error .wrongKind

def Statistic.shown : Statistic → Value
  | .figure v => v
  | .duration d => .text d.display

structure Statistics where
  entries : OrderedMap String Statistic
deriving Inhabited

namespace Statistics

def empty : Statistics := ⟨∅⟩

def addNamed (s : Statistics) (name : String) (value : Statistic) : Statistics :=
  ⟨s.entries.insertNew name value⟩

def add (s : Statistics) (key : StatisticKey) (value : Statistic) : Statistics :=
  s.addNamed key.name value

def addFor (s : Statistics) (subject : String) (key : StatisticKey) (value : Statistic) : Statistics :=
  s.addNamed (subject ++ "-" ++ key.name) value

def update (s : Statistics) (key : StatisticKey) (value : Statistic) : Statistics :=
  ⟨s.entries.insert key.name value⟩

def increment (s : Statistics) (key : StatisticKey) : Except Fault Statistics :=
  match s.entries.get? key.name with
  | none => .ok ⟨s.entries.insert key.name (.figure (.int 1))⟩
  | some old => do return ⟨s.entries.insert key.name (← old.succ)⟩

def shown (s : Statistics) : OrderedMap String Value := s.entries.mapValues fun _ v => v.shown

end Statistics

end CodeAtlas
