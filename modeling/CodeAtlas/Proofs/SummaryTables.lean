import CodeAtlas.Proofs.FanDegrees

/-!
# Tables on the console and in a file

What is shown on the console is written to the file as well only if there are both figures of the
whole analysis and rows of results, or neither: without figures the rows are left out, and without
rows writing fails after the other tables (`Work.exportTables_of_exportConsole`).
-/

namespace CodeAtlas

open Effect Summary

namespace Summary

variable {α : Type}

theorem untilFault_ok_append (as : List α) (rest : List (Except Fault α)) :
    untilFault (as.map .ok ++ rest) = (as ++ (untilFault rest).1, (untilFault rest).2) := by
  induction as with
  | nil => rfl
  | cons a as ih => simp only [List.map_cons, List.cons_append, untilFault, ih]

theorem eq_map_of_untilFault {xs : List (Except Fault α)} (h : (untilFault xs).2 = .ok ()) :
    xs = (untilFault xs).1.map .ok := by
  induction xs with
  | nil => rfl
  | cons x xs ih =>
    cases x with
    | error e => cases h
    | ok a => exact congrArg (Except.ok a :: ·) (ih h)

/-- The table of a part, if there is something in that part. -/
def tableOf (part : Value) (table : Except Fault Table) : List (Except Fault Table) :=
  if part.truthy then [table] else []

theorem cases_tableOf {part : Value} {table : Except Fault Table} {ts : List Table}
    (h : tableOf part table = ts.map .ok) :
    (part.truthy = true ∧ ∃ t, ts = [t] ∧ table = .ok t) ∨ part.truthy = false ∧ ts = [] := by
  rw [tableOf] at h
  split_ifs at h with htruthy
  · obtain ⟨t, ts', rfl, ht, hts'⟩ := List.map_eq_cons_iff.mp h.symm
    exact .inl ⟨htruthy, t, by rw [List.map_eq_nil_iff.mp hts'], ht.symm⟩
  · exact .inr ⟨by simpa using htruthy, List.map_eq_nil_iff.mp h.symm⟩

/-- The text of a file with the given tables, as far as it gets. -/
def fileTexts (s : Summary) (statistics overall rows : List Table) : List String :=
  statistics.flatMap (fun t => [s.heading "statistics", t.draw, "\n\n"]) ++
    overall.flatMap fun t => [s.heading "overall metrics", t.draw, "\n\n",
      s.heading "local metrics"] ++ rows.map Table.draw

/-- What is wrong with rows that are missing. -/
def rowsFault : Value → Fault
  | .map _ => .outOfRange
  | _ => .noSuchPart

variable {s : Summary}

theorem filledRowsTable_of_truthy {t : Table} (htruthy : s.rows.truthy = true)
    (h : s.namedRows.map rowsTable = .ok t) : s.filledRowsTable = .ok t := by
  rw [filledRowsTable]
  cases hnamed : s.namedRows with
  | error e =>
    rw [hnamed] at h
    cases h
  | ok rows =>
    rw [hnamed] at h
    refine (if_neg fun hempty => ?_).trans h
    obtain ⟨es, hlisted, hmap⟩ := except_bind_eq_ok.mp hnamed
    obtain rfl := List.isEmpty_iff.mp hempty
    cases es with
    | cons e es =>
      obtain ⟨z, zs, -, -, hcons⟩ := mapM_cons_eq_ok.mp hmap
      cases hcons
    | nil =>
      cases hrows : s.rows with
      | map entries =>
        rw [hrows] at hlisted htruthy
        rw [List.map_eq_nil_iff.mp (Except.ok.inj hlisted)] at htruthy
        cases htruthy
      | _ =>
        rw [hrows] at hlisted
        cases hlisted

theorem filledRowsTable_of_not_truthy (htruthy : s.rows.truthy = false) :
    s.filledRowsTable = .error (rowsFault s.rows) := by
  rw [filledRowsTable, namedRows]
  cases hrows : s.rows with
  | map es =>
    obtain rfl : es = [] := by simpa [hrows, Value.truthy] using htruthy
    rfl
  | _ => rfl

theorem filePieces_eq {statistics overall rows : List Table}
    (hstatistics : tableOf s.statistics s.statisticsTable = statistics.map .ok)
    (hoverall : tableOf s.overall s.overallTable = overall.map .ok)
    (hrows : tableOf s.rows (s.namedRows.map rowsTable) = rows.map .ok) :
    s.filePieces = (s.fileTexts statistics overall rows,
      if s.overall.truthy && !s.rows.truthy then .error (rowsFault s.rows) else .ok ()) := by
  have hfirst : (if s.statistics.truthy
      then [.ok (s.heading "statistics"), s.statisticsTable.map Table.draw, .ok "\n\n"] else []) =
      (statistics.flatMap fun t => [s.heading "statistics", t.draw, "\n\n"]).map .ok := by
    rcases cases_tableOf hstatistics with ⟨htruthy, t, rfl, ht⟩ | ⟨htruthy, rfl⟩
    · rw [if_pos htruthy, ht]
      rfl
    · rw [htruthy]
      rfl
  rw [filePieces, hfirst, untilFault_ok_append, fileTexts]
  rcases cases_tableOf hoverall with ⟨htruthy, t, rfl, ht⟩ | ⟨htruthy, rfl⟩
  · rw [htruthy, ht]
    rcases cases_tableOf hrows with ⟨hfilled, t', rfl, ht'⟩ | ⟨hempty, rfl⟩
    · rw [filledRowsTable_of_truthy hfilled ht', hfilled]
      rfl
    · rw [filledRowsTable_of_not_truthy hempty, hempty]
      rfl
  · rw [htruthy]
    rfl

end Summary

namespace Work

/-- Whatever the console shows: the file gets the table of statistics if there are statistics, and
the other tables only if there are figures of the whole analysis. Then it fails unless there are
rows. -/
theorem exportTables_of_exportConsole (s : Summary) (j j' : Job)
    (hok : exportConsole s j = .ok () j') : ∃ statistics overall rows : List Table,
      tableOf s.statistics s.statisticsTable = statistics.map .ok ∧
      tableOf s.overall s.overallTable = overall.map .ok ∧
      tableOf s.rows (s.namedRows.map rowsTable) = rows.map .ok ∧
      (statistics ++ overall ++ rows).forM (fun t => print t.draw) j = .ok () j' ∧
      ∀ dir, exportTables dir s = writePieces (dir ++ exportName "statistics-metrics.txt")
        (s.fileTexts statistics overall rows,
          if s.overall.truthy && !s.rows.truthy then .error (rowsFault s.rows) else .ok ()) := by
  obtain ⟨⟨⟩, t, hprint, hlift⟩ := bind_eq_ok.mp hok
  obtain ⟨houtcome, rfl⟩ := (lifted_eq_ok (l := lift) (fun _ => rfl) fun _ => rfl).mp hlift
  obtain ⟨first, rows, htables, hfirst, hrows⟩ :=
    List.map_eq_append_iff.mp (eq_map_of_untilFault houtcome).symm
  obtain ⟨statistics, overall, rfl, hstatistics, hoverall⟩ := List.map_eq_append_iff.mp hfirst
  refine ⟨statistics, overall, rows, hstatistics.symm, hoverall.symm, hrows.symm, htables ▸ hprint,
    fun dir => ?_⟩
  rw [exportTables, filePieces_eq hstatistics.symm hoverall.symm hrows.symm]

end Work

namespace Sample

/-- Figures of the whole analysis, and no rows. -/
def bareSummary : Summary :=
  { name := .text "a", statistics := .map [], overall := .map [(.text "n",
    .int 1)], rows := .map [] }

/-- The figures are shown and written to the file, which fails after them. -/
theorem exportTables_of_exportConsole_bareSummary : ∃ (j' : Job) (overall : Table),
    Work.exportConsole bareSummary classes = .ok () j' ∧
    Work.print overall.draw classes = .ok () j' ∧
    Work.exportTables "/d" bareSummary =
      Work.writePieces ("/d" ++ exportName "statistics-metrics.txt")
      ([bareSummary.heading "overall metrics", overall.draw, "\n\n",
        bareSummary.heading "local metrics"], .error .outOfRange) := by
  obtain ⟨statistics, overall, rows, hstatistics, hoverall, hrows, hprint, hfile⟩ :=
    Work.exportTables_of_exportConsole bareSummary classes _ rfl
  obtain ⟨⟨⟩, -⟩ | ⟨-, rfl⟩ := cases_tableOf hstatistics
  obtain ⟨⟨⟩, -⟩ | ⟨-, rfl⟩ := cases_tableOf hrows
  obtain ⟨-, t, rfl, -⟩ | ⟨⟨⟩, -⟩ := cases_tableOf hoverall
  exact ⟨_, t, rfl, hprint, hfile "/d"⟩

end Sample

end CodeAtlas
