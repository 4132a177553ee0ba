import CodeAtlas.Program.Analyze
import CodeAtlas.Proofs.Effects
import CodeAtlas.Proofs.Maps

/-!
# What exporting leaves as it is

An export reads what an analysis has collected and writes it down. In the analysis itself it fixes
the export directory and records how long everything took; all else is as before
(`Analysis.unexported`).
-/

namespace CodeAtlas

open Effect

/-- An analysis but for what its export changes. -/
def Analysis.unexported (a : Analysis) : Analysis :=
  { a with settings := { a.settings with exports.directory := .null }, statistics := .empty }

theorem Analysis.eq_of_unexported {a b : Analysis} (h : b.unexported = a.unexported) :
    b = { a with settings := b.settings, statistics := b.statistics } := by
  cases a
  cases b
  simp_all [unexported]

namespace Work

variable {c : Analysis} {α : Type}

/-- Work that only changes what an export changes. -/
abbrev OnlyExports (c : Analysis) (w : Work α) : Prop :=
  Keeps (fun j => j.analysis.unexported = c) w

theorem onlyExports_modifyAnalysis {f : Analysis → Analysis}
    (h : ∀ a, (f a).unexported = a.unexported) : OnlyExports c (modifyAnalysis f) :=
  .modify fun j hj => (h j.analysis).trans hj

theorem onlyExports_modifyStatistics (f : Statistics → Statistics) :
    OnlyExports c (modifyStatistics f) :=
  onlyExports_modifyAnalysis fun _ => rfl

theorem onlyExports_modifySession (f : Session → Session) : OnlyExports c (modifySession f) :=
  .modify fun _ hj => hj

theorem onlyExports_analysis : OnlyExports c analysis := .bind .get fun _ => .pure _

theorem onlyExports_session : OnlyExports c session := .bind .get fun _ => .pure _

theorem onlyExports_settings : OnlyExports c settings := .bind .get fun _ => .pure _

theorem onlyExports_lift (x : Except Fault α) : OnlyExports c (lift x) := by
  cases x with
  | ok v => exact .pure v
  | error e => exact .throw e

theorem onlyExports_log (source : LogSource) (kind : LogKind) (message : String) :
    OnlyExports c (log source kind message) :=
  onlyExports_modifySession _

/-! ### Files and the console -/

theorem onlyExports_writeBytes (path : String) (bytes : ByteArray) :
    OnlyExports c (writeBytes path bytes) :=
  .bind onlyExports_session fun _ => .bind (onlyExports_lift _) fun _ => onlyExports_modifySession _

theorem onlyExports_writePieces (path : String) (content : List String × Except Fault Unit) :
    OnlyExports c (writePieces path content) :=
  .bind (onlyExports_writeBytes _ _) fun _ => .bind (onlyExports_lift _) fun _ => onlyExports_lift _

theorem onlyExports_writeFile (path text : String) : OnlyExports c (writeFile path text) :=
  onlyExports_writePieces _ _

theorem onlyExports_writeOrEmpty (path : String) (text : Except Fault String) :
    OnlyExports c (writeOrEmpty path text) := by
  rw [writeOrEmpty.eq_def]
  split
  · exact onlyExports_writeFile _ _
  · exact onlyExports_writePieces _ _

theorem onlyExports_tryDisk (f : Disk → Except Fault Disk) : OnlyExports c (tryDisk f) := by
  refine .bind onlyExports_session fun s => ?_
  split
  · exact onlyExports_modifySession _
  · exact onlyExports_log _ _ _

theorem onlyExports_exportMarkup (dir : String) : OnlyExports c (exportMarkup dir) :=
  .bind onlyExports_analysis fun _ => .forM fun _ _ => onlyExports_writeOrEmpty _ _

theorem onlyExports_exportDocument (dir : String) (s : Summary) :
    OnlyExports c (exportDocument dir s) := by
  rw [exportDocument]
  split
  · exact .pure _
  · exact onlyExports_writeOrEmpty _ _

theorem onlyExports_exportConsole (s : Summary) : OnlyExports c (exportConsole s) :=
  .bind (.forM fun _ _ => onlyExports_modifySession _) fun _ => onlyExports_lift _

theorem onlyExports_copyPage (dir : String) : OnlyExports c (copyPage dir) :=
  .bind onlyExports_session fun _ => .ite_rest (.bind (onlyExports_tryDisk _) fun _ => ·)
    (onlyExports_tryDisk _)

theorem onlyExports_exportForceGraphs (dir : String) (statistics overall : Value)
    (views : List GraphView) : OnlyExports c (exportForceGraphs dir statistics overall views) := by
  induction views with
  | nil => exact .pure _
  | cons v rest ih =>
    exact .bind (.bind (onlyExports_writeFile _ _) fun _ => onlyExports_lift _) fun _ => .bind ih
      fun _ => .pure _

theorem onlyExports_exportPageDataOf (dir : String) (statistics overall : Value)
    (views : List GraphView) : OnlyExports c (exportPageDataOf dir statistics overall views) := by
  refine .bind onlyExports_analysis fun a => .bind (onlyExports_exportForceGraphs _ _ _ _)
    fun graphs => ?_
  split
  · exact .bind (onlyExports_lift _) fun _ => .bind (onlyExports_lift _)
      fun _ => onlyExports_writeFile _ _
  · exact .throw _

theorem onlyExports_exportDirectory : OnlyExports c exportDirectory := by
  refine .bind onlyExports_settings fun s => ?_
  split
  · exact .bind onlyExports_session fun _ => .bind (onlyExports_modifyAnalysis fun _ => rfl)
      fun _ => .pure _
  · exact .pure _

theorem onlyExports_checkedDirectory (dir : Value) : OnlyExports c (checkedDirectory dir) := by
  refine .bind onlyExports_session fun s => .bind (onlyExports_lift _) fun there => ?_
  split
  · split
    · exact .pure _
    · exact .throw _
  · exact .bind (onlyExports_log _ _ _) fun _ => .throw _

theorem onlyExports_exportAll : OnlyExports c exportAll := by
  refine .bind onlyExports_exportDirectory fun dir => .bind (onlyExports_checkedDirectory dir)
    fun dir => ?_
  refine .bind onlyExports_analysis
    fun a => .ite_rest (.bind (onlyExports_exportMarkup dir) fun _ => ·) ?_
  refine .ite_rest (.bind (onlyExports_copyPage dir)
    fun _ => .bind (onlyExports_exportPageDataOf _ _ _ _) fun _ => ·) ?_
  refine .ite_rest (.bind (onlyExports_writePieces _ _) fun _ => ·) ?_
  refine .ite_rest (.bind (onlyExports_exportDocument _ _) fun _ => ·) ?_
  dsimp only
  split
  on_goal 1 => refine .bind (onlyExports_exportConsole _) fun _ => ?_
  on_goal 2 => refine .ite_rest (.bind (onlyExports_exportConsole _) fun _ => ·) ?_
  -- With or without tables on the console, what is left is to say where the files are.
  all_goals
    refine .bind onlyExports_session fun s => .bind (onlyExports_log _ _ _) fun _ => ?_
    split
    · exact .bind (onlyExports_modifySession _) fun _ => .bind (onlyExports_log _ _ _)
        fun _ => onlyExports_log _ _ _
    · exact .pure _

theorem onlyExports_finish (start : Int) : OnlyExports c (finish start) :=
  .bind onlyExports_session fun _ => .bind (onlyExports_modifyStatistics _)
    fun _ => .bind onlyExports_exportAll fun _ =>
    onlyExports_log _ _ _

end Work

end CodeAtlas
