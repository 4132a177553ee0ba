import CodeAtlas.Analysis.Basic
import CodeAtlas.Log
import CodeAtlas.Metric.Terms
import CodeAtlas.Scan.Scanner

/-!
# Work on an analysis

A session is what surrounds an analysis: the files, the clock, the log, the console and the clipboard. Work on an
analysis changes both; work that fails keeps what it did before the failure.
-/

namespace CodeAtlas

structure Session where
  disk : Disk
  home : String
  now : Int
  log : Log := {}
  console : String := ""
  clipboard : List String := []
  commits : List Commit := []
  terms : TermModel := .unfitted
  knownModules : List String := []
deriving Inhabited

structure Job where
  session : Session
  analysis : Analysis
deriving Inhabited

abbrev Work := EStateM Fault Job

namespace Work

def analysis : Work Analysis := do return (← get).analysis

def session : Work Session := do return (← get).session

def settings : Work Settings := do return (← get).analysis.settings

def modifyAnalysis (f : Analysis → Analysis) : Work Unit :=
  modify fun j => { j with analysis := f j.analysis }

def modifySession (f : Session → Session) : Work Unit :=
  modify fun j => { j with session := f j.session }

def lift {α : Type} : Except Fault α → Work α
  | .ok a => pure a
  | .error e => throw e

def step (f : Analysis → Analysis × Except Fault Unit) : Work Unit := do
  let (a, r) := f (← analysis)
  modifyAnalysis fun _ => a
  lift r

def log (source : LogSource) (kind : LogKind) (message : String) : Work Unit :=
  modifySession fun s => { s with log := s.log.write source kind message }

def pass (d : Duration) : Work Unit := do
  let now := (← session).now + d.micros
  if DateTime.inRange now then modifySession fun s => { s with now := now } else throw .tooLarge

def print (text : String) : Work Unit :=
  modifySession fun s => { s with console := s.console ++ text ++ "\n" }

def modifyStatistics (f : Statistics → Statistics) : Work Unit :=
  modifyAnalysis fun a => { a with statistics := f a.statistics }

def logStatistics : Work Unit := do
  let a ← analysis
  log .analysis .start ("the following statistics were collected in " ++ a.settings.name.display)
  a.statistics.shown.entries.forM fun (name, v) => log .analysis .info (name ++ ": " ++ v.display)

def figureText : Value → String
  | .float x => Decimal.fixed x 2
  | v => v.display

def logOverall : Work Unit := do
  let a ← analysis
  log .analysis .start ("the following metrics were collected in " ++ a.settings.name.display)
  a.overall.entries.forM fun (name, v) => log .analysis .info (name ++ ": " ++ figureText v)

def logResults : Work Unit := do
  (← analysis).results.values.forM fun r => log .analysis .debug ("result=" ++ r.describe)

end Work

end CodeAtlas
