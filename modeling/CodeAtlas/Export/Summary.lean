import CodeAtlas.Export.Table
import CodeAtlas.Graph.Build

/-!
# Summaries

Statistics and figures of an analysis, as tables for the console and for a file, and as one interchange document.
-/

namespace CodeAtlas

/-- Statistics and figures under their names, and the rows of results. Each is a map, or counts as false where there is
nothing to show. -/
structure Summary where
  name : Value
  statistics : Value
  overall : Value
  rows : Value

namespace Summary

def object (entries : List (String × Value)) : Value := .map (entries.map fun (k, v) => (.text k, v))

def listed : Value → Except Fault (List (String × Value))
  | .map es => .ok (es.map fun (k, v) => (k.text?.getD "", v))
  | _ => .error .noSuchPart

def listedIfAny (v : Value) : Except Fault (List (String × Value)) := if v.truthy then listed v else .ok []

def isHidden (name : String) : Bool :=
  Text.contains name "commit-metrics" || Text.contains name "git-metrics"

def joined (entries : List (Value × Value)) : String :=
  Text.join ", " (entries.map fun (_, v) => v.display)

def shownFigure : Value → Except Fault Value
  | .map es => .ok (.text (joined es))
  | .text s => .ok (.text s)
  | .int n => .ok (.int n)
  | .bool b => .ok (.int (if b then 1 else 0))
  | .float x => .ok (.float (Decimal.roundTo x 2))
  | _ => .error .wrongKind

def shownOverall (overall : List (String × Value)) : Except Fault (List (String × Value)) :=
  (overall.filter fun (name, _) => !isHidden name).mapM fun (name, v) => do
    return (name, ← shownFigure v)

/-! ### Tables -/

def statisticsTable (s : Summary) : Except Fault Table := do
  return ⟨"statistic name", "value", (← listed s.statistics).map fun (name, v) => (name, v.display)⟩

def overallTable (s : Summary) : Except Fault Table := do
  let figures ← shownOverall (← listed s.overall)
  return ⟨"metric name", "value", figures.map fun (name, v) => (name, v.display)⟩

def namedRows (s : Summary) : Except Fault (List (String × List (String × Value))) := do
  (← listed s.rows).mapM fun (name, row) => do return (name, ← listed row)

def figureLine (entry : String × Value) : String := entry.1 ++ ": " ++ entry.2.display

/-- The length of the longest result name, and that of the longest line among those results whose names are longer than all
before. -/
def widths (rows : List (String × List (String × Value))) : Nat × Nat :=
  rows.foldl
    (fun (left, right) (name, row) =>
      if left < name.length then (name.length, (row.map fun e => (figureLine e).length).foldl max right)
      else (left, right))
    (0, 0)

def dashes (n : Nat) : String := String.ofList (List.replicate n '-')

def rowsTable (rows : List (String × List (String × Value))) : Table :=
  let (left, right) := widths rows
  let rule := (dashes left, dashes right ++ "--")
  let cells := rows.map fun (name, row) => (name, Text.join "\n" (row.map figureLine))
  ⟨"result", "local metrics", cells.intersperse rule⟩

def untilFault {α : Type} : List (Except Fault α) → List α × Except Fault Unit
  | [] => ([], .ok ())
  | .error e :: _ => ([], .error e)
  | .ok a :: rest =>
    let (more, r) := untilFault rest
    (a :: more, r)

def consoleTables (s : Summary) : List Table × Except Fault Unit :=
  untilFault
    ((if s.statistics.truthy then [s.statisticsTable] else [])
      ++ (if s.overall.truthy then [s.overallTable] else [])
      ++ if s.rows.truthy then [s.namedRows.map rowsTable] else [])

def heading (s : Summary) (what : String) : String :=
  "the following " ++ what ++ " were collected in " ++ s.name.display ++ "\n"

def filledRowsTable (s : Summary) : Except Fault Table := do
  let rows ← s.namedRows
  if rows.isEmpty then throw .outOfRange
  return rowsTable rows

/-- The pieces of the text of a file, as far as it gets. Rows are written if there are figures of the whole
analysis. -/
def filePieces (s : Summary) : List String × Except Fault Unit :=
  let gap : Except Fault String := .ok "\n\n"
  untilFault
    ((if s.statistics.truthy then [.ok (s.heading "statistics"), s.statisticsTable.map Table.draw, gap] else [])
      ++ if s.overall.truthy then
          [.ok (s.heading "overall metrics"), s.overallTable.map Table.draw, gap, .ok (s.heading "local metrics"),
            s.filledRowsTable.map Table.draw]
        else [])

/-! ### Interchange -/

def section? (name : String) (entries : List (String × Value)) : List (String × Value) :=
  if entries.isEmpty then [] else [(name, object entries)]

def isEmpty (s : Summary) : Bool := !s.statistics.truthy && !s.overall.truthy

def document (s : Summary) : Except Fault Value := do
  let statistics ← listedIfAny s.statistics
  let figures ← shownOverall (← listedIfAny s.overall)
  let rows ← (← listedIfAny s.rows).mapM fun (name, row) => do return (name, object (← listed row))
  return object (("analysis-name", s.name) :: (section? "statistics" statistics
    ++ section? "overall-metrics" figures ++ section? "local-metrics" rows))

end Summary

def Value.ofMap (m : OrderedMap String Value) : Value := Summary.object m.entries

end CodeAtlas
